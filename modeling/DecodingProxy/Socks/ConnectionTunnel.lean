import DecodingProxy.Lib.Runs
import DecodingProxy.Runtime.Faults
import Mathlib.Tactic.Common

/-!
# `ConnectionTunnel`, and `ServerForSocks5.ExchangeAsync`

Two loops copy between the client and the destination, one each way. A loop whose read gives
nothing counts it, and ends when both loops have counted; a loop whose read gives something starts
its count again. What a peer sends, the reads, the writes and the accesses to the counts come in any
order.
-/

namespace DecodingProxy.Socks
open DecodingProxy.Runs DecodingProxy.Runtime

structure ConnectionTunnel where
  zeroReadsAB : ℤ := 0
  zeroReadsBA : ℤ := 0
  deriving DecidableEq, Repr

namespace ConnectionTunnel

def zeroReadResetAB (t : ConnectionTunnel) : ConnectionTunnel := { t with zeroReadsAB := 0 }

def zeroReadResetBA (t : ConnectionTunnel) : ConnectionTunnel := { t with zeroReadsBA := 0 }

def bothZero (t : ConnectionTunnel) : Bool := t.zeroReadsAB > 0 && t.zeroReadsBA > 0

def zeroReadAB (t : ConnectionTunnel) : ConnectionTunnel × Bool :=
  let t := { t with zeroReadsAB := int32 (t.zeroReadsAB + 1) }
  (t, t.bothZero)

def zeroReadBA (t : ConnectionTunnel) : ConnectionTunnel × Bool :=
  let t := { t with zeroReadsBA := int32 (t.zeroReadsBA + 1) }
  (t, t.bothZero)

/-- What the loop of a direction calls. -/
def zeroReadReset (t : ConnectionTunnel) (isDirect : Bool) : ConnectionTunnel :=
  if isDirect then t.zeroReadResetAB else t.zeroReadResetBA

def zeroRead (t : ConnectionTunnel) (isDirect : Bool) : ConnectionTunnel × Bool :=
  if isDirect then t.zeroReadAB else t.zeroReadBA

/-- The count of the loop of a direction. -/
def zeroReads (t : ConnectionTunnel) (isDirect : Bool) : ℤ :=
  if isDirect then t.zeroReadsAB else t.zeroReadsBA

end ConnectionTunnel

/-- Where a loop is: before its read, before the write of what it read, before it starts its count
again, before it counts, and behind its end. -/
inductive CopyPhase
  | reading
  | writing (chunk : List UInt8)
  | resetting
  | delayed
  | ended
  | faulted
  deriving DecidableEq, Repr

/-- The bytes that were read and not written. -/
def CopyPhase.inHand : CopyPhase → List UInt8
  | .writing chunk => chunk
  | _ => []

/-- One direction: what its peer sent, what of this is not read, and the loop of the direction. -/
structure Copy where
  sent : List UInt8 := []
  unread : List UInt8 := []
  closed : Bool := false
  phase : CopyPhase := .reading
  written : List UInt8 := []
  totalBytesTransfered : ℤ := 0
  deriving DecidableEq, Repr

def Copy.bufferLength : ℕ := 2 ^ 10 * 512

structure Exchange where
  state : ConnectionTunnel := {}
  ab : Copy := {}
  ba : Copy := {}
  deriving DecidableEq, Repr

inductive ExchangeAction
  | send (isDirect : Bool) (bytes : List UInt8)
  | close (isDirect : Bool)
  | read (isDirect : Bool) (readed : ℕ)
  | write (isDirect : Bool)
  | fail (isDirect : Bool)
  | tell (isDirect : Bool)
  deriving DecidableEq, Repr

namespace Exchange

def copy (e : Exchange) (isDirect : Bool) : Copy := if isDirect then e.ab else e.ba

def setCopy (e : Exchange) (isDirect : Bool) (c : Copy) : Exchange :=
  if isDirect then { e with ab := c } else { e with ba := c }

/-- `ReadAsync` gives nothing at the end of what the peer sent alone. -/
def read (c : Copy) (readed : ℕ) : Except Unit Copy :=
  match c.phase with
  | .reading =>
    if readed = 0 then
      if c.unread = [] ∧ c.closed then .ok { c with phase := .delayed } else .error ()
    else if readed ≤ c.unread.length ∧ readed ≤ Copy.bufferLength then
      .ok { c with
        unread := c.unread.drop readed
        phase := .writing (c.unread.take readed)
        totalBytesTransfered := int32 (c.totalBytesTransfered + readed) }
    else .error ()
  | _ => .error ()

def write (c : Copy) : Except Unit Copy :=
  match c.phase with
  | .writing chunk => .ok { c with written := c.written ++ chunk, phase := .resetting }
  | _ => .error ()

/-- A read or a write throws, which ends the task of the loop. -/
def fail (c : Copy) : Except Unit Copy :=
  match c.phase with
  | .reading | .writing _ => .ok { c with phase := .faulted }
  | _ => .error ()

/-- The access to the counts, under the lock. -/
def tell (e : Exchange) (isDirect : Bool) : Except Unit Exchange :=
  let c := e.copy isDirect
  match c.phase with
  | .resetting =>
    let state := e.state.zeroReadReset isDirect
    .ok ({ e with state }.setCopy isDirect { c with phase := .reading })
  | .delayed =>
    let counted := e.state.zeroRead isDirect
    .ok ({ e with state := counted.1 }.setCopy isDirect
      { c with phase := if counted.2 then .ended else .reading })
  | _ => .error ()

def step (e : Exchange) : ExchangeAction → Except Unit Exchange
  | .send isDirect bytes =>
    let c := e.copy isDirect
    if c.closed then .error ()
    else .ok (e.setCopy isDirect
      { c with sent := c.sent ++ bytes, unread := c.unread ++ bytes })
  | .close isDirect => .ok (e.setCopy isDirect { e.copy isDirect with closed := true })
  | .read isDirect readed => (read (e.copy isDirect) readed).map (e.setCopy isDirect)
  | .write isDirect => (write (e.copy isDirect)).map (e.setCopy isDirect)
  | .fail isDirect => (fail (e.copy isDirect)).map (e.setCopy isDirect)
  | .tell isDirect => e.tell isDirect

/-! ### What holds at every step -/

/-- The peer has closed its side, and all it sent was read and written. -/
structure Complete (c : Copy) : Prop where
  closed : c.closed = true
  unread : c.unread = []
  bytes : c.written = c.sent
  idle : c.phase.inHand = [] ∧ c.phase ≠ .resetting ∧ ∀ chunk, c.phase ≠ .writing chunk

/-- A direction by itself. A loop that failed lost what it had in hand; a count is there only behind
the end of what the peer sent. -/
structure SoundCopy (c : Copy) (zeroReads : ℤ) : Prop where
  bytes : ∃ lost, c.sent = c.written ++ c.phase.inHand ++ lost ++ c.unread ∧
    (c.phase ≠ .faulted → lost = [])
  total : c.phase ≠ .faulted →
    c.totalBytesTransfered = int32 (c.written.length + c.phase.inHand.length : ℕ)
  delayed : c.phase = .delayed → Complete c
  counted : zeroReads ≠ 0 → Complete c

structure Sound (e : Exchange) : Prop where
  copies : ∀ isDirect, SoundCopy (e.copy isDirect) (e.state.zeroReads isDirect)
  ended : ∀ isDirect, (e.copy isDirect).phase = .ended → ∀ other, Complete (e.copy other)

variable {e e' : Exchange} {c c' : Copy} {z : ℤ}

theorem copy_setCopy (e : Exchange) (isDirect other : Bool) (c : Copy) :
    (e.setCopy isDirect c).copy other = if other = isDirect then c else e.copy other := by
  cases isDirect <;> cases other <;> rfl

@[simp] theorem state_setCopy (e : Exchange) (isDirect : Bool) (c : Copy) :
    (e.setCopy isDirect c).state = e.state := by
  cases isDirect <;> rfl

/-- A step of one direction that keeps it sound and complete, and does not end it. -/
theorem Sound.setCopy (h : Sound e) {isDirect : Bool}
    (hsound : SoundCopy c (e.state.zeroReads isDirect))
    (hcomplete : Complete (e.copy isDirect) → Complete c)
    (hended : c.phase = .ended → (e.copy isDirect).phase = .ended) :
    Sound (e.setCopy isDirect c) where
  copies other := by
    rw [copy_setCopy, state_setCopy]
    split_ifs with heq
    · exact heq ▸ hsound
    · exact h.copies other
  ended d hd other := by
    rw [copy_setCopy] at hd ⊢
    have hall : ∀ other, Complete (e.copy other) := by
      split_ifs at hd with heq
      · exact h.ended isDirect (hended hd)
      · exact h.ended d hd
    split_ifs with heq
    · exact hcomplete (hall isDirect)
    · exact hall other

theorem read_cases {readed : ℕ} (h : read c readed = .ok c') :
    c.phase = .reading ∧
      ((c.unread = [] ∧ c.closed = true ∧ c' = { c with phase := .delayed }) ∨
        (0 < readed ∧ readed ≤ c.unread.length ∧
          c' = { c with
            unread := c.unread.drop readed
            phase := .writing (c.unread.take readed)
            totalBytesTransfered := int32 (c.totalBytesTransfered + readed) })) := by
  unfold read at h
  split at h
  · next hphase =>
    refine ⟨hphase, ?_⟩
    split_ifs at h with hzero hend hfit
    · cases h
      exact .inl ⟨hend.1, hend.2, rfl⟩
    · cases h
      exact .inr ⟨Nat.pos_of_ne_zero hzero, hfit.1, rfl⟩
  · cases h

theorem SoundCopy.read (h : SoundCopy c z) {readed : ℕ} (hc : read c readed = .ok c') :
    SoundCopy c' z ∧ (Complete c → Complete c') ∧ c'.phase ≠ .ended := by
  obtain ⟨hphase, ⟨hunread, hclosed, rfl⟩ | ⟨hpos, hle, rfl⟩⟩ := read_cases hc
  · obtain ⟨lost, hbytes, hlost⟩ := h.bytes
    obtain rfl := hlost (by rw [hphase]; decide)
    rw [hphase, hunread] at hbytes
    have hcomplete : Complete { c with phase := .delayed } :=
      ⟨hclosed, hunread, by simpa [CopyPhase.inHand] using hbytes.symm, rfl, by simp, by simp⟩
    refine ⟨⟨⟨[], by simpa [CopyPhase.inHand, hunread] using hbytes, fun _ => rfl⟩, fun _ => ?_,
      fun _ => hcomplete, fun _ => hcomplete⟩, fun _ => hcomplete, by simp⟩
    simpa [hphase, CopyPhase.inHand] using h.total (by rw [hphase]; decide)
  · have hnot : ¬ Complete c := fun hcomplete => by
      rw [hcomplete.unread] at hle
      exact absurd hle (Nat.not_le.mpr hpos)
    refine ⟨⟨?_, fun _ => ?_, (fun hd => by cases hd), fun hz => absurd (h.counted hz) hnot⟩,
      fun hcomplete => absurd hcomplete hnot, by simp⟩
    · obtain ⟨lost, hbytes, hlost⟩ := h.bytes
      obtain rfl := hlost (by rw [hphase]; decide)
      refine ⟨[], ?_, fun _ => rfl⟩
      rw [hphase] at hbytes
      simpa [CopyPhase.inHand] using hbytes
    · have htotal := h.total (by rw [hphase]; decide)
      rw [hphase] at htotal
      simp only [CopyPhase.inHand, List.length_nil, Nat.add_zero, List.length_take] at htotal ⊢
      rw [htotal, int32_add, Nat.min_eq_left hle]
      norm_cast

theorem SoundCopy.write (h : SoundCopy c z) (hc : write c = .ok c') :
    SoundCopy c' z ∧ (Complete c → Complete c') ∧ c'.phase ≠ .ended := by
  unfold Exchange.write at hc
  split at hc
  · next chunk hphase =>
    cases hc
    have hnot : ¬ Complete c := fun hcomplete => hcomplete.idle.2.2 chunk hphase
    obtain ⟨lost, hbytes, hlost⟩ := h.bytes
    have htotal := h.total (by rw [hphase]; simp)
    rw [hphase] at hbytes htotal hlost
    refine ⟨⟨⟨lost, by simpa [CopyPhase.inHand] using hbytes, fun _ => hlost (by simp)⟩,
      fun _ => by simpa [CopyPhase.inHand] using htotal, (fun hd => by cases hd),
      fun hz => absurd (h.counted hz) hnot⟩, fun hcomplete => absurd hcomplete hnot, by simp⟩
  · cases hc

theorem SoundCopy.fail (h : SoundCopy c z) (hc : fail c = .ok c') :
    SoundCopy c' z ∧ (Complete c → Complete c') ∧ c'.phase ≠ .ended := by
  have hc' : c' = { c with phase := .faulted } := by
    unfold Exchange.fail at hc
    split at hc <;> cases hc <;> rfl
  subst hc'
  have hcomplete : Complete c → Complete { c with phase := .faulted } := fun hcomplete =>
    ⟨hcomplete.closed, hcomplete.unread, hcomplete.bytes, rfl, by simp, by simp⟩
  obtain ⟨lost, hbytes, -⟩ := h.bytes
  exact ⟨⟨⟨c.phase.inHand ++ lost, by simpa [CopyPhase.inHand] using hbytes,
      (fun hf => by simp at hf)⟩,
    (fun hf => by simp at hf), (fun hd => by cases hd), fun hz => hcomplete (h.counted hz)⟩,
    hcomplete, by simp⟩

theorem zeroReads_reset (t : ConnectionTunnel) (isDirect other : Bool) :
    (t.zeroReadReset isDirect).zeroReads other =
      if other = isDirect then 0 else t.zeroReads other := by
  cases isDirect <;> cases other <;> rfl

theorem zeroReads_zeroRead (t : ConnectionTunnel) {isDirect other : Bool} (h : other ≠ isDirect) :
    (t.zeroRead isDirect).1.zeroReads other = t.zeroReads other := by
  cases isDirect <;> cases other <;> first | rfl | exact absurd rfl h

theorem zeroReads_of_both {t : ConnectionTunnel} {isDirect : Bool}
    (h : (t.zeroRead isDirect).2 = true) (other : Bool) :
    (t.zeroRead isDirect).1.zeroReads other ≠ 0 := by
  cases isDirect <;> cases other <;>
    simp [ConnectionTunnel.zeroReads, ConnectionTunnel.zeroRead, ConnectionTunnel.zeroReadAB,
      ConnectionTunnel.zeroReadBA, ConnectionTunnel.bothZero] at h ⊢ <;> omega

theorem Complete.phase (h : Complete c) {phase : CopyPhase}
    (hphase : phase.inHand = [] ∧ phase ≠ .resetting ∧ ∀ chunk, phase ≠ .writing chunk) :
    Complete { c with phase } :=
  ⟨h.closed, h.unread, h.bytes, hphase⟩

theorem copy_state (e : Exchange) (state : ConnectionTunnel) (other : Bool) :
    { e with state }.copy other = e.copy other := rfl

/-- The count starts again where something was read, so nothing has ended. -/
theorem Sound.reset (h : Sound e) {isDirect : Bool}
    (hphase : (e.copy isDirect).phase = .resetting) :
    Sound ({ e with state := e.state.zeroReadReset isDirect }.setCopy isDirect
      { e.copy isDirect with phase := .reading }) := by
  have hnot : ¬ Complete (e.copy isDirect) := fun hc => hc.idle.2.1 hphase
  constructor
  · intro other
    have hcopy := h.copies other
    rw [copy_setCopy, state_setCopy, zeroReads_reset, copy_state]
    by_cases heq : other = isDirect
    · subst heq
      rw [if_pos rfl, if_pos rfl]
      obtain ⟨lost, hbytes, hlost⟩ := hcopy.bytes
      have htotal := hcopy.total (by rw [hphase]; decide)
      rw [hphase] at hbytes htotal
      exact ⟨⟨lost, hbytes, fun _ => hlost (by rw [hphase]; decide)⟩, fun _ => htotal,
        (fun hd => by cases hd), fun hz => absurd rfl hz⟩
    · rwa [if_neg heq, if_neg heq]
  · intro d hd
    rw [copy_setCopy, copy_state] at hd
    by_cases heq : d = isDirect
    · rw [if_pos heq] at hd
      cases hd
    · rw [if_neg heq] at hd
      exact absurd (h.ended d hd isDirect) hnot

/-- A loop that counts is complete, and where it ends the other one is as well. -/
theorem Sound.count (h : Sound e) {isDirect : Bool}
    (hphase : (e.copy isDirect).phase = .delayed) :
    Sound ({ e with state := (e.state.zeroRead isDirect).1 }.setCopy isDirect
      { e.copy isDirect with
        phase := if (e.state.zeroRead isDirect).2 then .ended else .reading }) := by
  have hdelayed := (h.copies isDirect).delayed hphase
  have hnext : ∀ phase : CopyPhase, phase = .ended ∨ phase = .reading →
      Complete { e.copy isDirect with phase } := by
    rintro phase (rfl | rfl) <;> exact hdelayed.phase ⟨rfl, by simp, by simp⟩
  have hphase' : (if (e.state.zeroRead isDirect).2 then CopyPhase.ended else .reading) = .ended ∨
      (if (e.state.zeroRead isDirect).2 then CopyPhase.ended else .reading) = .reading := by
    cases (e.state.zeroRead isDirect).2
    · exact .inr rfl
    · exact .inl rfl
  have hcomplete := hnext _ hphase'
  constructor
  · intro other
    have hcopy := h.copies other
    rw [copy_setCopy, state_setCopy, copy_state]
    by_cases heq : other = isDirect
    · subst heq
      rw [if_pos rfl]
      have htotal := hcopy.total (by rw [hphase]; decide)
      rw [hphase] at htotal
      refine ⟨⟨[], ?_, fun _ => rfl⟩, fun _ => ?_, fun _ => hcomplete, fun _ => hcomplete⟩
      · rw [hcomplete.idle.1, hcomplete.bytes, hcomplete.unread]
        simp
      · rw [hcomplete.idle.1]
        exact htotal
    · rw [if_neg heq, zeroReads_zeroRead _ heq]
      exact hcopy
  · intro d hd other
    rw [copy_setCopy, copy_state] at hd ⊢
    by_cases heq : other = isDirect
    · rw [if_pos heq]
      exact hcomplete
    rw [if_neg heq]
    by_cases hdd : d = isDirect
    · rw [if_pos hdd] at hd
      have hboth : (e.state.zeroRead isDirect).2 = true := by
        by_contra hfalse
        rw [if_neg hfalse] at hd
        cases hd
      have hzero := zeroReads_of_both hboth other
      rw [zeroReads_zeroRead _ heq] at hzero
      exact (h.copies other).counted hzero
    · rw [if_neg hdd] at hd
      exact h.ended d hd other

theorem Sound.tell (h : Sound e) {isDirect : Bool} (he : e.tell isDirect = .ok e') : Sound e' := by
  unfold Exchange.tell at he
  cases hphase : (e.copy isDirect).phase with
  | resetting =>
    simp only [hphase] at he
    cases he
    exact h.reset hphase
  | delayed =>
    simp only [hphase] at he
    cases he
    exact h.count hphase
  | reading | writing | ended | faulted =>
    simp only [hphase] at he
    cases he

theorem Sound.step (h : Sound e) {action : ExchangeAction} (he : step e action = .ok e') :
    Sound e' := by
  cases action with
  | send isDirect bytes =>
    simp only [Exchange.step] at he
    split_ifs at he with hclosed
    cases he
    have hnot : ¬ Complete (e.copy isDirect) := fun hcomplete => hclosed hcomplete.closed
    have hcopy := h.copies isDirect
    obtain ⟨lost, hbytes, hlost⟩ := hcopy.bytes
    refine h.setCopy ⟨⟨lost, ?_, hlost⟩, hcopy.total, fun hd => absurd (hcopy.delayed hd) hnot,
      fun hz => absurd (hcopy.counted hz) hnot⟩ (fun hcomplete => absurd hcomplete hnot) id
    simp [hbytes]
  | close isDirect =>
    cases he
    have hcopy := h.copies isDirect
    have hcomplete : Complete (e.copy isDirect) →
        Complete { e.copy isDirect with closed := true } := fun hc =>
      ⟨rfl, hc.unread, hc.bytes, hc.idle⟩
    exact h.setCopy ⟨hcopy.bytes, hcopy.total, fun hd => hcomplete (hcopy.delayed hd),
      fun hz => hcomplete (hcopy.counted hz)⟩ hcomplete id
  | read isDirect readed =>
    obtain ⟨c, hc, rfl⟩ := map_ok_iff.mp he
    obtain ⟨hsound, hcomplete, hended⟩ := (h.copies isDirect).read hc
    exact h.setCopy hsound hcomplete fun hp => absurd hp hended
  | write isDirect =>
    obtain ⟨c, hc, rfl⟩ := map_ok_iff.mp he
    obtain ⟨hsound, hcomplete, hended⟩ := (h.copies isDirect).write hc
    exact h.setCopy hsound hcomplete fun hp => absurd hp hended
  | fail isDirect =>
    obtain ⟨c, hc, rfl⟩ := map_ok_iff.mp he
    obtain ⟨hsound, hcomplete, hended⟩ := (h.copies isDirect).fail hc
    exact h.setCopy hsound hcomplete fun hp => absurd hp hended
  | tell isDirect => exact h.tell he

theorem sound_start : Sound {} := by
  have hzero : (0 : ℤ) = int32 0 := (int32_of_range (by omega) (by omega)).symm
  constructor
  · intro isDirect
    cases isDirect <;>
      exact ⟨⟨[], rfl, fun _ => rfl⟩, fun _ => hzero, (fun hd => by cases hd),
        fun hz => absurd rfl hz⟩
  · intro isDirect hd
    cases isDirect <;> cases hd

/-- Whatever the order of the steps, a destination is given the bytes of its source in their order,
each once; and when one loop ends, both peers have closed and each was given all of the other. -/
theorem exchange_complete {actions : List ExchangeAction} {e : Exchange}
    (h : run step {} actions = .ok e) :
    (∀ isDirect, (e.copy isDirect).written <+: (e.copy isDirect).sent) ∧
      ∀ isDirect, (e.copy isDirect).phase = .ended → ∀ other,
        (e.copy other).closed = true ∧ (e.copy other).written = (e.copy other).sent ∧
          ((e.copy other).phase ≠ .faulted →
            (e.copy other).totalBytesTransfered = int32 (e.copy other).sent.length) := by
  have hsound : Sound e := run_history (I := fun _ e => Sound e) sound_start
    (fun _ _ _ _ hsound hstep => hsound.step hstep) h
  constructor
  · intro isDirect
    obtain ⟨lost, hbytes, -⟩ := (hsound.copies isDirect).bytes
    rw [hbytes, List.append_assoc, List.append_assoc]
    exact List.prefix_append _ _
  · intro isDirect hended other
    have hcomplete := hsound.ended isDirect hended other
    refine ⟨hcomplete.closed, hcomplete.bytes, fun hf => ?_⟩
    have htotal := (hsound.copies other).total hf
    rwa [hcomplete.idle.1, List.length_nil, Nat.add_zero, hcomplete.bytes] at htotal

/-- Two bytes one way and none the other way, up to the end of the loop back. -/
theorem exchange_complete_twoBytes :
    ∃ e : Exchange, e.ba.phase = .ended ∧ e.ab.written = e.ab.sent ∧ e.ab.sent = [1, 2] := by
  have hrun : run step ({} : Exchange) [.send true [1, 2], .close true, .close false,
      .read true 2, .write true, .tell true, .read true 0, .tell true, .read false 0,
      .tell false] =
      .ok { state := ⟨1, 1⟩
            ab := { sent := [1, 2], closed := true, written := [1, 2], totalBytesTransfered := 2 }
            ba := { closed := true, phase := .ended } } := by
    decide
  have h := exchange_complete hrun
  exact ⟨_, rfl, (h.2 false rfl true).2.1, rfl⟩

end Exchange

end DecodingProxy.Socks
