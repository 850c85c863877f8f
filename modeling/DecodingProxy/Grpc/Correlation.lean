import DecodingProxy.Grpc.GrpcHub
import Mathlib.Data.List.Nodup

/-!
# Which response belongs to which message

The messages stand on the request stream in the order of their numbers, with gaps where a write
failed. The answers stand on the response stream in the order of the messages. So a response is
told by its number alone, until the numbers come round.
-/

namespace DecodingProxy.Grpc
open DecodingProxy.Http DecodingProxy.Runs DecodingProxy.Runtime

/-- The messages that are numbered by an action. -/
def HubAction.numbers : HubAction → ℕ
  | .connect | .enter _ _ => 1
  | _ => 0

namespace Hub
variable {host : HubHost} {h h' : Hub} {n : ℕ} {a : HubAction}

/-! ### What an action does -/

inductive Steps (host : HubHost) (h : Hub) : HubAction → Hub → Prop
  | connect {client : BidirectionalClient} {message : BinaryMessage}
      (hconnected : h.client.connected = false)
      (hnumber : number h.client ConstantsGrpc.typeAuth
        (toJsonString ConstantsGrpc.messageType ConstantsGrpc.typeAuth) = (client, message)) :
      Steps host h .connect { h with
        client := { client with connected := true }
        requests := h.requests ++ [message] }
  | enter {action : ℤ} {bytes : List UInt8} {client : BidirectionalClient}
      {message : BinaryMessage} (hconnected : h.client.connected = true)
      (hnumber : number h.client action bytes = (client, message)) :
      Steps host h (.enter action bytes)
        { h with client := { client with sending := some message } }
  | written {message : BinaryMessage} (hsending : h.client.sending = some message) :
      Steps host h .written { h with
        client := { h.client with sending := none }
        requests := h.requests ++ [message] }
  | writeFailed :
      Steps host h .writeFailed { h with client := { h.client with sending := none } }
  | serverRequests (hloop : h.loop = .notCalled) : Steps host h .serverRequests
      { h with loop := .reading, response := host.response, registered := true }
  | served {request response : BinaryMessage} {isLast : Bool} (hloop : h.loop = .reading)
      (hrequest : h.requests[h.handled]? = some request)
      (hanswer : host.answer h.handled request h.response = .ok (response, isLast)) :
      Steps host h .serve
        { h with handled := h.handled + 1, loop := .replying response isLast }
  | serveFaulted (hloop : h.loop = .reading) (hrequest : h.handled < h.requests.length) :
      Steps host h .serve { h with handled := h.handled + 1, loop := .faulted }
  | replied {response : BinaryMessage} {isLast : Bool}
      (hloop : h.loop = .replying response isLast) :
      Steps host h .replied { h with
        loop := if isLast then .left else .reading
        response
        registered := !isLast
        responses := h.responses ++ [.reply response] }
  | replyFailed {response : BinaryMessage} {isLast : Bool}
      (hloop : h.loop = .replying response isLast) :
      Steps host h .replyFailed { h with loop := .faulted }
  | cancelled (hloop : h.loop = .reading) :
      Steps host h .cancelled { h with loop := .left, registered := false }
  | push {action : ℤ} {bytes : List UInt8} {message : BinaryMessage} (hid : message.id = 0) :
      Steps host h (.push action bytes) { h with pushing := some message }
  | pushRefused {action : ℤ} {bytes : List UInt8} : Steps host h (.push action bytes) h
  | pushed {message : BinaryMessage} (hpushing : h.pushing = some message) :
      Steps host h .pushed
        { h with pushing := none, responses := h.responses ++ [.push message] }
  | pushFailed : Steps host h .pushFailed { h with pushing := none }
  | recieve {response : Response} {clientId : ℤ}
      (hresponse : h.responses[h.received]? = some response)
      (hid : clientId =
        if h.received = 0 then readId host response h.client.clientId else h.client.clientId) :
      Steps host h .recieve
        { h with received := h.received + 1, client := { h.client with clientId } }

theorem steps_of_written {isWritten : Bool} (hstep : h.written isWritten = .ok h') :
    Steps host h (if isWritten then .written else .writeFailed) h' := by
  unfold Hub.written at hstep
  split at hstep
  · rename_i message hsending
    cases hstep
    cases isWritten with
    | false => exact .writeFailed
    | true => exact .written hsending
  · cases hstep

theorem steps_of_pushed {isWritten : Bool} (hstep : h.pushed isWritten = .ok h') :
    Steps host h (if isWritten then .pushed else .pushFailed) h' := by
  unfold Hub.pushed at hstep
  split at hstep
  · rename_i message hpushing
    cases hstep
    cases isWritten with
    | false => exact .pushFailed
    | true => exact .pushed hpushing
  · cases hstep

theorem steps_of_serve (hstep : h.serve host = .ok h') : Steps host h .serve h' := by
  unfold serve at hstep
  split at hstep
  · rename_i request hloop hrequest
    obtain ⟨hlt, -⟩ := List.getElem?_eq_some_iff.mp hrequest
    cases hstep
    cases hanswer : host.answer h.handled request h.response with
    | error fault => exact .serveFaulted hloop hlt
    | ok answer =>
      dsimp only
      split_ifs
      · exact .served hloop hrequest hanswer
      · exact .serveFaulted hloop hlt
  · cases hstep

theorem steps_of_recieve (hstep : h.recieve host = .ok h') : Steps host h .recieve h' := by
  unfold recieve at hstep
  split at hstep
  · rename_i response hresponse
    cases hstep
    exact .recieve hresponse rfl
  · cases hstep

theorem steps_of_push (action : ℤ) (bytes : List UInt8) :
    Steps host h (.push action bytes) (h.push host action bytes) := by
  unfold push
  split_ifs
  · split
    · exact .pushRefused
    · exact .pushRefused
    · exact .push rfl
  · exact .pushRefused

theorem step_steps (hstep : step host h a = .ok h') : Steps host h a h' := by
  cases a with
  | connect =>
    unfold step connect at hstep
    dsimp only at hstep
    split_ifs at hstep with hconnected
    cases hstep
    exact .connect (Bool.eq_false_of_not_eq_true hconnected) rfl
  | enter action bytes =>
    unfold step enter at hstep
    dsimp only at hstep
    split_ifs at hstep with hready
    cases hstep
    exact .enter hready.1 rfl
  | written => exact steps_of_written hstep
  | writeFailed => exact steps_of_written hstep
  | serverRequests =>
    unfold step serverRequests at hstep
    dsimp only at hstep
    split_ifs at hstep with hloop
    cases hstep
    exact .serverRequests hloop
  | serve => exact steps_of_serve hstep
  | replied =>
    unfold step replied at hstep
    dsimp only at hstep
    split at hstep
    · rename_i hloop
      cases hstep
      exact .replied hloop
    · cases hstep
  | replyFailed =>
    unfold step replyFailed at hstep
    dsimp only at hstep
    split at hstep
    · rename_i hloop
      cases hstep
      exact .replyFailed hloop
    · cases hstep
  | cancelled =>
    unfold step cancelled at hstep
    dsimp only at hstep
    split_ifs at hstep with hloop
    cases hstep
    exact .cancelled hloop
  | push action bytes =>
    cases hstep
    exact steps_of_push action bytes
  | pushed => exact steps_of_pushed hstep
  | pushFailed => exact steps_of_pushed hstep
  | recieve => exact steps_of_recieve hstep

/-! ### The numbers -/

/-- The numbers on the request stream increase up to the last one that was given. -/
structure Numbered (n : ℕ) (h : Hub) : Prop where
  counter : h.client.counterSending = int32 n
  idle : h.client.connected = false → h.client.sending = none
  ids : ∃ ks : List ℕ, h.requests.map (·.id) = ks.map (fun k : ℕ => int32 k) ∧
    ks.Pairwise (· < ·) ∧ (∀ k ∈ ks, 0 < k ∧ k ≤ n) ∧
    ∀ message, h.client.sending = some message →
      message.id = int32 n ∧ 0 < n ∧ ∀ k ∈ ks, k < n

theorem numbered_start : Numbered 0 {} where
  counter := rfl
  idle _ := rfl
  ids := ⟨[], rfl, .nil, by simp, by simp⟩

theorem pairwise_concat {ks : List ℕ} {k : ℕ} (h : ks.Pairwise (· < ·)) (hk : ∀ j ∈ ks, j < k) :
    (ks ++ [k]).Pairwise (· < ·) := by
  refine List.pairwise_append.mpr ⟨h, List.pairwise_singleton _ _, fun j hj i hi => ?_⟩
  rw [List.mem_singleton.mp hi]
  exact hk j hj

theorem Numbered.number {type : ℤ} {bytes : List UInt8} {client : BidirectionalClient}
    {message : BinaryMessage} (hn : Numbered n h)
    (hnumber : number h.client type bytes = (client, message)) :
    client.counterSending = int32 (n + 1 : ℕ) ∧ message.id = int32 (n + 1 : ℕ) ∧
      client.connected = h.client.connected ∧ client.sending = h.client.sending := by
  have hnext : int32 (h.client.counterSending + 1) = int32 (n + 1 : ℕ) := by
    rw [hn.counter, int32_succ]
    rfl
  cases hnumber
  exact ⟨hnext, hnext, rfl, rfl⟩

theorem numbered_step (hn : Numbered n h) (hstep : step host h a = .ok h') :
    Numbered (n + a.numbers) h' := by
  obtain ⟨ks, hids, hsorted, hrange, hlast⟩ := hn.ids
  cases step_steps hstep with
  | connect hconnected hnumber =>
    obtain ⟨hcounter, hid, -, hsending⟩ := hn.number hnumber
    rw [hn.idle hconnected] at hsending
    refine ⟨hcounter, fun _ => hsending, ks ++ [n + 1], ?_, ?_, ?_, ?_⟩
    · rw [List.map_append, List.map_append, hids]
      exact congrArg (_ ++ [·]) hid
    · exact pairwise_concat hsorted fun k hk => Nat.lt_succ_of_le (hrange k hk).2
    · intro k hk
      rcases List.mem_append.mp hk with hk | hk
      · exact ⟨(hrange k hk).1, (hrange k hk).2.trans (Nat.le_succ n)⟩
      · rw [List.mem_singleton.mp hk]
        exact ⟨Nat.succ_pos n, le_rfl⟩
    · intro message hmessage
      exact absurd (hsending.symm.trans hmessage) (Option.some_ne_none message).symm
  | enter hconnected hnumber =>
    obtain ⟨hcounter, hid, hkept, -⟩ := hn.number hnumber
    refine ⟨hcounter, fun hfalse => ?_, ks, hids, hsorted, ?_, ?_⟩
    · exact absurd (hkept.trans hconnected) (ne_true_of_eq_false hfalse)
    · intro k hk
      exact ⟨(hrange k hk).1, (hrange k hk).2.trans (Nat.le_succ n)⟩
    · intro message hmessage
      cases hmessage
      exact ⟨hid, Nat.succ_pos n, fun k hk => Nat.lt_succ_of_le (hrange k hk).2⟩
  | written hsending =>
    obtain ⟨hid, hpos, hbelow⟩ := hlast _ hsending
    refine ⟨hn.counter, fun _ => rfl, ks ++ [n], ?_, pairwise_concat hsorted hbelow, ?_, by simp⟩
    · rw [List.map_append, List.map_append, hids]
      exact congrArg (_ ++ [·]) hid
    · intro k hk
      rcases List.mem_append.mp hk with hk | hk
      · exact hrange k hk
      · rw [List.mem_singleton.mp hk]
        exact ⟨hpos, le_rfl⟩
  | writeFailed => exact ⟨hn.counter, fun _ => rfl, ks, hids, hsorted, hrange, by simp⟩
  | _ => exact ⟨hn.counter, hn.idle, ks, hids, hsorted, hrange, hlast⟩

/-! ### The answers -/

/-- A response that the loop wrote. -/
def reply? : Response → Option BinaryMessage
  | .reply message => some message
  | .push _ => none

def replies (h : Hub) : List BinaryMessage := h.responses.filterMap reply?

theorem replies_reply (responses : List Response) (message : BinaryMessage) :
    (responses ++ [Response.reply message]).filterMap reply? =
      responses.filterMap reply? ++ [message] := by
  simp [reply?]

theorem replies_push (responses : List Response) (message : BinaryMessage) :
    (responses ++ [Response.push message]).filterMap reply? = responses.filterMap reply? := by
  simp [reply?]

/-- A message that the loop makes of the `i`-th request. -/
def IsAnswer (host : HubHost) (requests : List BinaryMessage) (i : ℕ) (reply : BinaryMessage)
    (isLast : Bool) : Prop :=
  ∃ request response, requests[i]? = some request ∧
    host.answer i request response = .ok (reply, isLast)

theorem IsAnswer.append {requests : List BinaryMessage} {i : ℕ} {reply : BinaryMessage}
    {isLast : Bool} (h : IsAnswer host requests i reply isLast) (more : List BinaryMessage) :
    IsAnswer host (requests ++ more) i reply isLast := by
  obtain ⟨request, response, hrequest, hanswer⟩ := h
  obtain ⟨hlt, -⟩ := List.getElem?_eq_some_iff.mp hrequest
  exact ⟨request, response, (List.getElem?_append_left hlt).trans hrequest, hanswer⟩

/-- How many of the messages that were read are answered. -/
def Progress (host : HubHost) (requests : List BinaryMessage) (answered handled : ℕ) :
    LoopPhase → Prop
  | .notCalled | .reading => answered = handled
  | .replying response isLast =>
    answered + 1 = handled ∧ IsAnswer host requests answered response isLast
  | .left | .faulted => answered ≤ handled

structure Answered (host : HubHost) (h : Hub) : Prop where
  handled : h.handled ≤ h.requests.length
  progress : Progress host h.requests h.replies.length h.handled h.loop
  answers : ∀ i reply, h.replies[i]? = some reply →
    ∃ isLast, IsAnswer host h.requests i reply isLast ∧
      (isLast = true → h.loop = .left ∧ i + 1 = h.replies.length)
  pushes : ∀ message, .push message ∈ h.responses → message.id = 0
  pushing : ∀ message, h.pushing = some message → message.id = 0

theorem answered_start : Answered host {} where
  handled := le_rfl
  progress := rfl
  answers i reply hreply := by cases hreply
  pushes message hmem := by cases hmem
  pushing message hmessage := by cases hmessage

theorem Progress.append {requests : List BinaryMessage} {answered handled : ℕ} {loop : LoopPhase}
    (h : Progress host requests answered handled loop) (more : List BinaryMessage) :
    Progress host (requests ++ more) answered handled loop := by
  cases loop with
  | replying response isLast => exact ⟨h.1, h.2.append more⟩
  | _ => exact h

theorem Progress.le {requests : List BinaryMessage} {answered handled : ℕ} {loop : LoopPhase}
    (h : Progress host requests answered handled loop) : answered ≤ handled := by
  cases loop with
  | notCalled => exact Nat.le_of_eq h
  | reading => exact Nat.le_of_eq h
  | replying response isLast => exact (Nat.le_succ _).trans (Nat.le_of_eq h.1)
  | left => exact h
  | faulted => exact h

/-- More requests are on the stream. -/
theorem Answered.append (ha : Answered host h) (more : List BinaryMessage)
    (client : BidirectionalClient) :
    Answered host { h with client, requests := h.requests ++ more } where
  handled := by
    rw [List.length_append]
    exact ha.handled.trans (Nat.le_add_right _ _)
  progress := ha.progress.append more
  answers i reply hreply := by
    obtain ⟨isLast, hanswer, hlast⟩ := ha.answers i reply hreply
    exact ⟨isLast, hanswer.append more, hlast⟩
  pushes := ha.pushes
  pushing := ha.pushing

/-- The loop goes on, or ends, without a write. -/
theorem Answered.move (ha : Answered host h) (loop : LoopPhase) {handled : ℕ}
    (hloop : h.loop ≠ .left) (hhandled : handled ≤ h.requests.length)
    (hprogress : Progress host h.requests h.replies.length handled loop)
    (response : BinaryMessage) (registered : Bool) :
    Answered host { h with loop, handled, response, registered } where
  handled := hhandled
  progress := hprogress
  answers i reply hreply := by
    obtain ⟨isLast, hanswer, hlast⟩ := ha.answers i reply hreply
    exact ⟨isLast, hanswer, fun htrue => absurd (hlast htrue).1 hloop⟩
  pushes := ha.pushes
  pushing := ha.pushing

/-- The answer in hand is written, and is the last one if the loop ends with it. -/
theorem Answered.reply {response : BinaryMessage} {isLast : Bool} (ha : Answered host h)
    (hloop : h.loop = .replying response isLast) (hcount : h.replies.length + 1 = h.handled)
    (hanswer : IsAnswer host h.requests h.replies.length response isLast) :
    Answered host { h with
      loop := if isLast then .left else .reading
      response
      registered := !isLast
      responses := h.responses ++ [.reply response] } := by
  have hreplies := replies_reply h.responses response
  refine ⟨ha.handled, ?_, fun i reply hreply => ?_, fun message hmem => ?_, ha.pushing⟩
  · rw [replies, hreplies, List.length_append, List.length_singleton]
    cases isLast with
    | false => exact hcount
    | true => exact Nat.le_of_eq hcount
  · rw [replies, hreplies] at hreply ⊢
    rcases Nat.lt_or_ge i h.replies.length with hlt | hge
    · obtain ⟨isLast', hanswer', hlast⟩ :=
        ha.answers i reply ((List.getElem?_append_left hlt).symm.trans hreply)
      refine ⟨isLast', hanswer', fun htrue => ?_⟩
      rw [(hlast htrue).1] at hloop
      cases hloop
    · have hlt := (List.getElem?_eq_some_iff.mp hreply).1
      rw [List.length_append, List.length_singleton] at hlt
      obtain rfl : i = h.replies.length := by
        rw [replies] at hge ⊢
        omega
      cases (List.getElem?_concat_length).symm.trans hreply
      refine ⟨isLast, hanswer, fun htrue => ⟨if_pos htrue, ?_⟩⟩
      rw [List.length_append, List.length_singleton, replies]
  · rcases List.mem_append.mp hmem with hmem | hmem
    · exact ha.pushes message hmem
    · cases List.mem_singleton.mp hmem

theorem answered_step (ha : Answered host h) (hstep : step host h a = .ok h') :
    Answered host h' := by
  have hprogress := ha.progress
  cases step_steps hstep with
  | connect hconnected hnumber => exact ha.append _ _
  | enter hconnected hnumber => exact ⟨ha.handled, hprogress, ha.answers, ha.pushes, ha.pushing⟩
  | written hsending => exact ha.append _ _
  | writeFailed => exact ⟨ha.handled, hprogress, ha.answers, ha.pushes, ha.pushing⟩
  | serverRequests hloop =>
    rw [hloop] at hprogress
    exact ha.move .reading (by simp [hloop]) ha.handled hprogress _ _
  | served hloop hrequest hanswer =>
    rw [hloop] at hprogress
    obtain ⟨hlt, -⟩ := List.getElem?_eq_some_iff.mp hrequest
    have hanswers : IsAnswer host h.requests h.replies.length _ _ :=
      ⟨_, _, hprogress ▸ hrequest, hprogress ▸ hanswer⟩
    exact ha.move (.replying _ _) (by simp [hloop]) hlt
      ⟨congrArg (· + 1) hprogress, hanswers⟩ _ _
  | serveFaulted hloop hlt =>
    exact ha.move .faulted (by simp [hloop]) hlt (hprogress.le.trans (Nat.le_succ _)) _ _
  | @replied response isLast hloop =>
    rw [hloop] at hprogress
    exact ha.reply hloop hprogress.1 hprogress.2
  | replyFailed hloop => exact ha.move .faulted (by simp [hloop]) ha.handled hprogress.le _ _
  | cancelled hloop => exact ha.move .left (by simp [hloop]) ha.handled hprogress.le _ _
  | push hid =>
    refine ⟨ha.handled, hprogress, ha.answers, ha.pushes, fun message hmessage => ?_⟩
    cases hmessage
    exact hid
  | pushRefused => exact ha
  | @pushed message hpushing =>
    have hreplies := replies_push h.responses message
    refine ⟨ha.handled, ?_, fun i reply hreply => ?_, fun message hmem => ?_, by simp⟩
    · rw [replies, hreplies]
      exact hprogress
    · rw [replies, hreplies] at hreply ⊢
      exact ha.answers i reply hreply
    · rcases List.mem_append.mp hmem with hmem | hmem
      · exact ha.pushes message hmem
      · cases List.mem_singleton.mp hmem
        exact ha.pushing _ hpushing
  | pushFailed => exact ⟨ha.handled, hprogress, ha.answers, ha.pushes, by simp⟩
  | recieve hresponse hid => exact ⟨ha.handled, hprogress, ha.answers, ha.pushes, ha.pushing⟩

/-! ### The handshake -/

/-- The first message asks for the identifier, and the first response is what it is read out of. -/
structure Handshake (host : HubHost) (h : Hub) : Prop where
  connected : h.client.connected = false ↔ h.requests = []
  first : ∀ request, h.requests[0]? = some request →
    request.bytes = toJsonString ConstantsGrpc.messageType ConstantsGrpc.typeAuth
  unread : h.received = 0 → h.client.clientId = 0
  read : 0 < h.received →
    ∃ response, h.responses[0]? = some response ∧ h.client.clientId = readId host response 0

theorem handshake_start : Handshake host {} where
  connected := iff_of_true rfl rfl
  first request hrequest := by cases hrequest
  unread _ := rfl
  read hpos := absurd hpos (lt_irrefl 0)

theorem number_kept {type : ℤ} {bytes : List UInt8} {client : BidirectionalClient}
    {message : BinaryMessage} (hnumber : number h.client type bytes = (client, message)) :
    client.clientId = h.client.clientId ∧ client.connected = h.client.connected ∧
      message.bytes = bytes := by
  cases hnumber
  exact ⟨rfl, rfl, rfl⟩

/-- What is read is not overtaken by what is written later. -/
theorem Handshake.read_append (hs : Handshake host h) (more : List Response)
    (hpos : 0 < h.received) :
    ∃ response, (h.responses ++ more)[0]? = some response ∧
      h.client.clientId = readId host response 0 := by
  obtain ⟨response, hresponse, hid⟩ := hs.read hpos
  obtain ⟨hlt, -⟩ := List.getElem?_eq_some_iff.mp hresponse
  exact ⟨response, (List.getElem?_append_left hlt).trans hresponse, hid⟩

theorem handshake_step (hs : Handshake host h) (hn : Numbered n h)
    (hstep : step host h a = .ok h') : Handshake host h' := by
  cases step_steps hstep with
  | connect hconnected hnumber =>
    obtain ⟨hid, -, hbytes⟩ := number_kept hnumber
    refine ⟨iff_of_false Bool.noConfusion (by simp), fun request hrequest => ?_, ?_, ?_⟩
    · rw [hs.connected.mp hconnected] at hrequest
      cases hrequest
      exact hbytes
    · exact fun hzero => hid.trans (hs.unread hzero)
    · intro hpos
      obtain ⟨response, hresponse, hread⟩ := hs.read hpos
      exact ⟨response, hresponse, hid.trans hread⟩
  | enter hconnected hnumber =>
    obtain ⟨hid, hkept, -⟩ := number_kept hnumber
    refine ⟨?_, hs.first, fun hzero => hid.trans (hs.unread hzero), fun hpos => ?_⟩
    · rw [← hs.connected]
      exact hkept ▸ Iff.rfl
    · obtain ⟨response, hresponse, hread⟩ := hs.read hpos
      exact ⟨response, hresponse, hid.trans hread⟩
  | written hsending =>
    have hconnected : h.client.connected ≠ false := fun hfalse =>
      absurd (hsending.symm.trans (hn.idle hfalse)) (Option.some_ne_none _)
    have hne : h.requests ≠ [] := fun hnil => hconnected (hs.connected.mpr hnil)
    refine ⟨iff_of_false hconnected (by simp), fun request hrequest => ?_, hs.unread, hs.read⟩
    rw [List.getElem?_append_left (List.length_pos_of_ne_nil hne)] at hrequest
    exact hs.first request hrequest
  | writeFailed => exact ⟨hs.connected, hs.first, hs.unread, hs.read⟩
  | replied hloop => exact ⟨hs.connected, hs.first, hs.unread, hs.read_append _⟩
  | pushed hpushing => exact ⟨hs.connected, hs.first, hs.unread, hs.read_append _⟩
  | @recieve response clientId hresponse hid =>
    refine ⟨hs.connected, hs.first, fun hzero => absurd hzero (Nat.succ_ne_zero _), fun _ => ?_⟩
    rcases Nat.eq_zero_or_pos h.received with hzero | hpos
    · rw [if_pos hzero, hs.unread hzero] at hid
      rw [hzero] at hresponse
      exact ⟨response, hresponse, hid⟩
    · rw [if_neg hpos.ne'] at hid
      obtain ⟨response, hresponse, hread⟩ := hs.read hpos
      exact ⟨response, hresponse, hid.trans hread⟩
  | _ => exact ⟨hs.connected, hs.first, hs.unread, hs.read⟩

/-! ### Whole runs -/

section Runs
variable {actions : List HubAction} {hub : Hub}

theorem answered_run (hrun : run (step host) {} actions = .ok hub) : Answered host hub :=
  run_history (I := fun _ t => Answered host t) answered_start
    (fun _ _ _ _ ha hstep => answered_step ha hstep) hrun

theorem handshake_run (hrun : run (step host) {} actions = .ok hub) :
    Handshake host hub ∧ Numbered (actions.map HubAction.numbers).sum hub := by
  refine run_history (I := fun actions t =>
    Handshake host t ∧ Numbered (actions.map HubAction.numbers).sum t)
    ⟨handshake_start, numbered_start⟩ (fun actions a t t' hsound hstep => ?_) hrun
  refine ⟨handshake_step hsound.1 hsound.2 hstep, ?_⟩
  rw [List.map_append, List.sum_append, List.map_singleton, List.sum_singleton]
  exact numbered_step hsound.2 hstep

theorem answer_id {i : ℕ} {request response reply : BinaryMessage} {isLast : Bool}
    (hanswer : host.answer i request response = .ok (reply, isLast)) : reply.id = request.id := by
  obtain ⟨msgType, -, hanswer⟩ := do_ok_iff.mp hanswer
  split_ifs at hanswer
  · cases hanswer
    rfl
  · obtain ⟨result, -, hanswer⟩ := do_ok_iff.mp hanswer
    cases hanswer
    rfl
  · cases hanswer
    rfl

theorem int32_injOn {j k : ℕ} (hj : j < 2 ^ 32) (hk : k < 2 ^ 32) (h : int32 j = int32 k) :
    j = k := by
  unfold int32 Int.bmod at h
  dsimp only at h
  split_ifs at h <;> omega

/-- No two messages on the stream have one number, and none has the number of a push. -/
theorem Numbered.distinct (hn : Numbered n h) (hfew : n < 2 ^ 32) :
    (h.requests.map (·.id)).Nodup ∧ ∀ request ∈ h.requests, request.id ≠ 0 := by
  obtain ⟨ks, hids, hsorted, hrange, -⟩ := hn.ids
  constructor
  · rw [hids]
    have hnodup : ks.Nodup := hsorted.imp fun hlt => hlt.ne
    refine List.Nodup.map_on (fun j hj k hk heq => ?_) hnodup
    exact int32_injOn ((hrange j hj).2.trans_lt hfew) ((hrange k hk).2.trans_lt hfew) heq
  · intro request hrequest hzero
    have hmem : request.id ∈ ks.map fun k : ℕ => int32 k := by
      rw [← hids]
      exact List.mem_map_of_mem hrequest
    obtain ⟨k, hk, heq⟩ := List.mem_map.mp hmem
    have hk0 := int32_injOn ((hrange k hk).2.trans_lt hfew) (Nat.two_pow_pos 32)
      (heq.trans hzero : int32 k = int32 (0 : ℕ))
    exact (hrange k hk).1.ne' hk0

/-- The loop answers the messages in their order and one by one, and nothing behind a message it
does not know. -/
theorem replies_answer (hrun : run (step host) {} actions = .ok hub) (i : ℕ)
    (reply : BinaryMessage) (hreply : hub.replies[i]? = some reply) :
    ∃ isLast, IsAnswer host hub.requests i reply isLast ∧
      (isLast = true → i + 1 = hub.replies.length) := by
  obtain ⟨isLast, hanswer, hlast⟩ := (answered_run hrun).answers i reply hreply
  exact ⟨isLast, hanswer, fun htrue => (hlast htrue).2⟩

/-- One function, which gives back what it is given, and the texts of the samples. -/
def echoHost : HubHost where
  parseNumber property bytes :=
    if bytes = toJsonString property ConstantsGrpc.typeAuth then .ok ConstantsGrpc.typeAuth
    else if bytes = toJsonString property ConstantsGrpc.typeDataForServer then
      .ok ConstantsGrpc.typeDataForServer
    else if bytes = toJsonString property 7 then .ok 7
    else .error (.raised .format)
  funcs := [fun _ bytes => .ok bytes]
  clientId := 7
  response := {}

/-- The handshake, and a message that is answered behind a push. -/
def echoRun : List HubAction :=
  [.connect, .serverRequests, .serve, .replied, .recieve,
    .enter 0 (toJsonString ConstantsGrpc.messageType ConstantsGrpc.typeDataForServer),
    .push 5 [1], .written, .pushed, .serve, .replied]

theorem exists_echo : ∃ hub reply request, run (step echoHost) {} echoRun = .ok hub ∧
    hub.replies[1]? = some reply ∧ hub.requests[1]? = some request ∧ 0 < hub.received := by
  obtain ⟨hub, hrun, hends⟩ := ok_of_toOption_map (x := run (step echoHost) {} echoRun)
    (f := fun hub => (hub.replies[1]?.isSome, hub.requests[1]?.isSome, hub.received))
    (c := (true, true, 1)) (by decide)
  obtain ⟨hreply, hends⟩ := Prod.mk.inj hends
  obtain ⟨hrequest, hreceived⟩ := Prod.mk.inj hends
  obtain ⟨reply, hreply⟩ := Option.isSome_iff_exists.mp hreply
  obtain ⟨request, hrequest⟩ := Option.isSome_iff_exists.mp hrequest
  exact ⟨hub, reply, request, hrun, hreply, hrequest, Nat.lt_of_lt_of_eq Nat.one_pos hreceived.symm⟩

theorem replies_answer_echo : ∃ hub reply isLast, run (step echoHost) {} echoRun = .ok hub ∧
    hub.replies[1]? = some reply ∧ IsAnswer echoHost hub.requests 1 reply isLast := by
  obtain ⟨hub, reply, request, hrun, hreply, -, -⟩ := exists_echo
  obtain ⟨isLast, hanswer, -⟩ := replies_answer hrun 1 reply hreply
  exact ⟨hub, reply, isLast, hrun, hreply, hanswer⟩

/-- Up to the number at which the counter comes round, a response has the number of a message
exactly if it is the answer to this message. -/
theorem response_identifies (hrun : run (step host) {} actions = .ok hub)
    (hfew : (actions.map HubAction.numbers).sum < 2 ^ 32) (j : ℕ) (request : BinaryMessage)
    (hrequest : hub.requests[j]? = some request) :
    (∀ i reply, hub.replies[i]? = some reply → (reply.id = request.id ↔ i = j)) ∧
      ∀ message, .push message ∈ hub.responses → message.id ≠ request.id := by
  have hsound := answered_run hrun
  obtain ⟨hnodup, hnonzero⟩ := (handshake_run hrun).2.distinct hfew
  constructor
  · intro i reply hreply
    obtain ⟨isLast, ⟨answered, response, hanswered, hanswer⟩, -⟩ := hsound.answers i reply hreply
    rw [answer_id hanswer]
    have hlt := (List.getElem?_eq_some_iff.mp hanswered).1
    have hi : (hub.requests.map (·.id))[i]? = some answered.id := by
      rw [List.getElem?_map, hanswered]
      rfl
    have hj : (hub.requests.map (·.id))[j]? = some request.id := by
      rw [List.getElem?_map, hrequest]
      rfl
    constructor
    · intro heq
      have hsame : (hub.requests.map (·.id))[i]? = (hub.requests.map (·.id))[j]? := by
        rw [hi, hj, heq]
      exact (List.getElem?_inj (by rwa [List.length_map]) hnodup).mp hsame
    · intro hij
      rw [hij] at hi
      exact Option.some.inj (hi.symm.trans hj)
  · intro message hmem heq
    rw [hsound.pushes message hmem] at heq
    exact hnonzero request (List.mem_of_getElem? hrequest) heq.symm

theorem response_identifies_echo : ∃ hub reply request,
    run (step echoHost) {} echoRun = .ok hub ∧ hub.replies[1]? = some reply ∧
      hub.requests[1]? = some request ∧ reply.id = request.id := by
  obtain ⟨hub, reply, request, hrun, hreply, hrequest, -⟩ := exists_echo
  have hidentifies := response_identifies hrun (by decide) 1 request hrequest
  exact ⟨hub, reply, request, hrun, hreply, hrequest, (hidentifies.1 1 reply hreply).mpr rfl⟩

/-- If the texts are read as they were written, the client has its identifier behind the first
response, unless this is a push. -/
theorem handshake_id (hrun : run (step host) {} actions = .ok hub)
    (hauth : host.parseNumber ConstantsGrpc.messageType
      (toJsonString ConstantsGrpc.messageType ConstantsGrpc.typeAuth) =
        .ok ConstantsGrpc.typeAuth)
    (hid : host.parseNumber ConstantsGrpc.clientId
      (toJsonString ConstantsGrpc.clientId host.clientId) = .ok host.clientId)
    (hpos : 0 < hub.received) :
    hub.client.clientId = host.clientId ∨ ∃ message, hub.responses[0]? = some (.push message) := by
  have hsound := answered_run hrun
  have hhandshake := (handshake_run hrun).1
  obtain ⟨response, hresponse, hread⟩ := hhandshake.read hpos
  cases response with
  | push message => exact .inr ⟨message, hresponse⟩
  | reply message =>
    refine .inl ?_
    have hreply : hub.replies[0]? = some message := by
      obtain ⟨front, hfront⟩ := List.head?_eq_some_iff.mp (List.head?_eq_getElem?.trans hresponse)
      rw [replies, hfront]
      rfl
    obtain ⟨isLast, ⟨request, response, hrequest, hanswer⟩, -⟩ := hsound.answers 0 message hreply
    have hbytes := hhandshake.first request hrequest
    rw [HubHost.answer] at hanswer
    obtain ⟨msgType, hparse, hanswer⟩ := do_ok_iff.mp hanswer
    rw [hbytes, hauth] at hparse
    cases hparse
    rw [if_pos rfl] at hanswer
    cases hanswer
    rw [hread, readId]
    dsimp only [Response.message]
    rw [hid]

theorem handshake_id_echo : ∃ hub, run (step echoHost) {} echoRun = .ok hub ∧
    (hub.client.clientId = 7 ∨ ∃ message, hub.responses[0]? = some (.push message)) := by
  obtain ⟨hub, reply, request, hrun, -, -, hpos⟩ := exists_echo
  exact ⟨hub, hrun, handshake_id hrun (by decide) (by decide) hpos⟩

end Runs

end Hub

end DecodingProxy.Grpc
