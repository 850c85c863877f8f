import DecodingProxy.Lib.Runs
import DecodingProxy.Threading.AsyncSignaler
import Mathlib.Tactic.Common

/-!
# `AsyncSignaler` and cancellation

One consumer awaits, any number of tokens cancel. A `Set` without an open wait should be
kept for the next `Await`, and `requests` should count the open waits. A cancellation
completes an open wait and leaves it counted, so the next `Set` is spent on it.
-/

namespace DecodingProxy.Threading
open DecodingProxy.Runs DecodingProxy.Runtime

/-- The signaler, its token sources and its one consumer. -/
structure SignalerSession where
  signaler : AsyncSignaler := {}
  /-- The sources that hold the callback, once for each registration. -/
  registrations : List ℕ := []
  canceledSources : List ℕ := []
  /-- The version of the wait that the consumer has not returned from. -/
  awaiting : Option UInt16 := none
  /-- How many `Set`s met no open wait and were given to no `Await` yet. -/
  stored : ℕ := 0
  deriving DecidableEq, Repr

inductive SignalerCall
  | await (ct : Option ℕ)
  | getResult
  | set
  | cancel (source : ℕ)
  deriving DecidableEq, Repr

namespace SignalerSession

/-- The consumer's wait is neither completed nor cancelled. -/
def outstanding (s : SignalerSession) : Bool :=
  s.awaiting = some s.signaler.manualReset.version && !s.signaler.manualReset.completed

def token (s : SignalerSession) (ct : Option ℕ) : Option CancellationToken :=
  ct.map fun source => ⟨source, source ∈ s.canceledSources⟩

/-- The token of this `Await` is registered although it is cancelled already. -/
def registersCanceled (s : SignalerSession) (ct : Option ℕ) : Bool :=
  s.signaler.registers (s.token ct) &&
    (s.token ct).any CancellationToken.isCancellationRequested

def await (s : SignalerSession) (ct : Option ℕ) : SignalerSession :=
  let registrations :=
    if s.signaler.responses ≤ 0 ∧ s.signaler.registers (s.token ct) ∧ ¬ s.registersCanceled ct then
      s.registrations ++ ct.toList
    else s.registrations
  match s.signaler.await (s.token ct) with
  | (signaler, .ok (.result _)) => { s with signaler, registrations, stored := s.stored - 1 }
  | (signaler, .ok (.source version)) =>
    { s with signaler, registrations, awaiting := some version }
  | (signaler, .error _) => { s with signaler, registrations }

def set (s : SignalerSession) : SignalerSession :=
  { s with
    signaler := s.signaler.set.1
    stored := if s.outstanding then s.stored else s.stored + 1 }

/-- The callback; the continuation of an open wait runs inside and takes the exception. -/
def callback (s : SignalerSession) : SignalerSession :=
  { s with
    signaler := s.signaler.setException.1
    awaiting := if s.outstanding then none else s.awaiting }

/-- The first `Cancel` of a source runs its callbacks, also after one has thrown. -/
def cancel (s : SignalerSession) (source : ℕ) : SignalerSession :=
  if source ∈ s.canceledSources then s
  else
    (s.registrations.filter (· = source)).foldl (fun s _ => s.callback)
      { s with canceledSources := source :: s.canceledSources }

/-- A call that cannot be made is an error: a second wait of the one consumer, or a return
from a wait that is not completed. -/
def step (s : SignalerSession) : SignalerCall → Except Unit SignalerSession
  | .await ct => if s.awaiting = none then .ok (s.await ct) else .error ()
  | .getResult =>
    match s.awaiting with
    | some version =>
      if s.signaler.manualReset.completed then
        .ok { s with signaler := (s.signaler.getResult version).1, awaiting := none }
      else .error ()
    | none => .error ()
  | .set => .ok s.set
  | .cancel source => .ok (s.cancel source)

/-- `requests` counts the open wait, and a stored `Set` completes the next `Await`. -/
structure Balanced (s : SignalerSession) : Prop where
  requests : s.signaler.requests = if s.outstanding then 1 else 0
  kept : 0 < s.stored → (s.signaler.await none).2 = .ok (.result true)

def KeepsSignals (calls : List SignalerCall) : Prop :=
  ∀ s, Reached step {} calls s → s.Balanced

/-- A cancellation during an open wait; a wait on a source that a cancellation between
`SetResult` and `GetResult` left completed, where no response is stored; or a `Set` without
an open wait when as many are stored as an `int` counts. -/
def Breaks (s : SignalerSession) : SignalerCall → Prop
  | .cancel source =>
    source ∉ s.canceledSources ∧ source ∈ s.registrations ∧ s.outstanding = true
  | .await ct =>
    s.awaiting = none ∧ s.signaler.responses ≤ 0 ∧ s.signaler.manualReset.completed = true ∧
      s.registersCanceled ct = false
  | .set => s.outstanding = false ∧ s.signaler.responses = 2 ^ 31 - 1
  | .getResult => False

/-- The wait of the consumer is of the current version, what an ended wait left in the
source is an exception, and the stored responses are counted. -/
structure Sound (s : SignalerSession) : Prop where
  version : ∀ version, s.awaiting = some version → version = s.signaler.manualReset.version
  left : s.awaiting = none → s.signaler.manualReset.completed = true →
    s.signaler.manualReset.error = true
  stored : s.signaler.responses = s.stored
  range : s.stored < 2 ^ 31

variable {s t : SignalerSession}

theorem await_none_iff {s : AsyncSignaler} :
    (s.await none).2 = .ok (.result true) ↔ 0 < s.responses := by
  unfold AsyncSignaler.await
  split_ifs with hr hc
  · simp at hc
  · simp [hr]
  · simp [AsyncSignaler.register, AsyncSignaler.registers, hr]

theorem Sound.outstanding_iff (h : s.Sound) :
    s.outstanding = true ↔ s.awaiting ≠ none ∧ s.signaler.manualReset.completed = false := by
  cases hw : s.awaiting with
  | none => simp [outstanding, hw]
  | some version => simp [outstanding, hw, h.version version hw]

theorem Sound.balanced_iff (h : s.Sound) :
    s.Balanced ↔ s.signaler.requests = if s.outstanding then 1 else 0 := by
  refine ⟨fun hb => hb.requests, fun hr => ⟨hr, fun hs => await_none_iff.mpr ?_⟩⟩
  rw [h.stored]
  exact_mod_cast hs

/-- What one call does to a sound and balanced session. -/
structure Follows (s : SignalerSession) (a : SignalerCall) (t : SignalerSession) : Prop where
  balanced : t.Balanced ↔ ¬ s.Breaks a
  sound : t.Balanced → t.Sound

theorem Follows.kept {a : SignalerCall} (ht : t.Sound)
    (hr : t.signaler.requests = if t.outstanding then 1 else 0) (hnot : ¬ s.Breaks a) :
    Follows s a t :=
  ⟨iff_of_true (ht.balanced_iff.mpr hr) hnot, fun _ => ht⟩

theorem Follows.broken {a : SignalerCall} (hbreaks : s.Breaks a) (hnot : ¬ t.Balanced) :
    Follows s a t :=
  ⟨iff_of_false hnot (fun h => h hbreaks), fun h => absurd h hnot⟩

/-! ### Each call -/

theorem follows_getResult (h : s.Sound) (hb : s.Balanced) (hs : s.step .getResult = .ok t) :
    Follows s .getResult t := by
  simp only [step] at hs
  split at hs
  · rename_i version hw
    split_ifs at hs with hdone
    cases hs
    obtain rfl := h.version version hw
    have hclosed : s.outstanding = false := by simp [outstanding, hdone]
    have hzero : s.signaler.requests = 0 := by simpa [hclosed] using hb.requests
    refine .kept ⟨by simp, ?_, ?_, h.range⟩ ?_ (by simp [Breaks])
    · intro _ hc
      cases herror : s.signaler.manualReset.error with
      | true =>
        simp [AsyncSignaler.getResult, ManualResetValueTaskSourceCore.getResult, hdone, herror]
      | false =>
        simp [AsyncSignaler.getResult, ManualResetValueTaskSourceCore.getResult, hdone, herror,
          ManualResetValueTaskSourceCore.reset] at hc
    · have hr : (s.signaler.getResult s.signaler.manualReset.version).1.responses =
          s.signaler.responses := by
        unfold AsyncSignaler.getResult
        split <;> rfl
      exact hr.trans h.stored
    · have hr : (s.signaler.getResult s.signaler.manualReset.version).1.requests =
          s.signaler.requests := by
        unfold AsyncSignaler.getResult
        split <;> rfl
      simp [hr, hzero, outstanding]
  · cases hs

theorem follows_set_open (h : s.Sound) (hb : s.Balanced) (hopen : s.outstanding = true) :
    Follows s .set s.set := by
  obtain ⟨hw, hpending⟩ := h.outstanding_iff.mp hopen
  have hone : s.signaler.requests = 1 := by simpa [hopen] using hb.requests
  have hset : s.signaler.set.1 = { s.signaler with
      requests := 0, manualReset := { s.signaler.manualReset with completed := true } } := by
    simp [AsyncSignaler.set, hone, ManualResetValueTaskSourceCore.setResult,
      ManualResetValueTaskSourceCore.signalCompletion, hpending]
  refine .kept ⟨?_, fun hnone => absurd hnone hw, ?_, ?_⟩ ?_ (by simp [Breaks, hopen])
  · simpa [set, hset] using h.version
  · simpa [set, hset, hopen] using h.stored
  · simpa [set, hopen] using h.range
  · simp [set, hset, outstanding]

theorem follows_set_closed (h : s.Sound) (hb : s.Balanced) (hclosed : s.outstanding = false) :
    Follows s .set s.set := by
  have hzero : s.signaler.requests = 0 := by simpa [hclosed] using hb.requests
  have hset : s.signaler.set.1 =
      { s.signaler with responses := int32 (s.signaler.responses + 1) } := by
    simp [AsyncSignaler.set, hzero]
  by_cases hfull : s.signaler.responses = 2 ^ 31 - 1
  · refine .broken ⟨hclosed, hfull⟩ fun hbalanced => ?_
    have hpos : 0 < (s.set).stored := by simp [set, hclosed]
    have hwrapped : 0 < int32 (s.signaler.responses + 1) := by
      simpa [set, hset] using await_none_iff.mp (hbalanced.kept hpos)
    rw [hfull] at hwrapped
    exact absurd hwrapped (by decide)
  · have hresponses := h.stored
    have hrange := h.range
    have hnext : int32 (s.signaler.responses + 1) = s.signaler.responses + 1 := by
      rw [int32_of_range] <;> omega
    rw [hnext] at hset
    refine .kept ⟨?_, ?_, ?_, ?_⟩ ?_ (fun hbreaks => hfull hbreaks.2)
    · simpa [set, hset] using h.version
    · simpa [set, hset] using h.left
    · simp [set, hset, hclosed, h.stored]
    · simp only [set, hclosed, Bool.false_eq_true, if_false]
      omega
    · have hsame : s.set.outstanding = s.outstanding := by simp [set, hset, outstanding]
      rw [hsame, hclosed]
      simpa [set, hset] using hzero

theorem setException_open {s : AsyncSignaler} (h : s.manualReset.completed = false) :
    s.setException = ({ s with manualReset := s.manualReset.reset }, .ok ()) := by
  simp [AsyncSignaler.setException, ManualResetValueTaskSourceCore.setException,
    ManualResetValueTaskSourceCore.signalCompletion, h, ManualResetValueTaskSourceCore.reset]

theorem setException_completed {s : AsyncSignaler} (h : s.manualReset.completed = true) :
    s.setException = ({ s with manualReset := { s.manualReset with error := true } },
      .error (.raised .invalidOperation)) := by
  simp [AsyncSignaler.setException, ManualResetValueTaskSourceCore.setException,
    ManualResetValueTaskSourceCore.signalCompletion, h]

theorem follows_await_stored (h : s.Sound) (hb : s.Balanced) (ct : Option ℕ)
    (hr : 0 < s.signaler.responses) :
    Follows s (.await ct) (s.await ct) := by
  have hnot : ¬ s.Breaks (.await ct) := fun hbreaks => absurd hbreaks.2.1 (by omega)
  have hstay : ¬ s.signaler.responses ≤ 0 := by omega
  by_cases hcanceled : (s.token ct).any CancellationToken.isCancellationRequested = true
  · have hsame : s.await ct = s := by
      simp [await, AsyncSignaler.await, hr, hcanceled, hstay]
    rw [hsame]
    exact .kept h hb.requests hnot
  · have hawait : s.await ct = { s with
        signaler := { s.signaler with responses := s.signaler.responses - 1 }
        stored := s.stored - 1 } := by
      simp [await, AsyncSignaler.await, hr, hcanceled, hstay]
    have hstored := h.stored
    have hrange := h.range
    rw [hawait]
    refine .kept ⟨h.version, h.left, ?_, ?_⟩ hb.requests hnot
    · change s.signaler.responses - 1 = ((s.stored - 1 : ℕ) : ℤ)
      omega
    · change s.stored - 1 < 2 ^ 31
      omega

theorem register_fresh {ct : Option ℕ} (h : s.registersCanceled ct = false) :
    ∃ registered, s.signaler.register (s.token ct) =
      ({ s.signaler with cancellationToken := registered }, .ok ()) := by
  by_cases hreg : s.signaler.registers (s.token ct) = true
  · have hlive : (s.token ct).any CancellationToken.isCancellationRequested = false := by
      simpa [registersCanceled, hreg] using h
    exact ⟨(s.token ct).map CancellationToken.source, by
      simp [AsyncSignaler.register, hreg, hlive]⟩
  · exact ⟨s.signaler.cancellationToken, by simp [AsyncSignaler.register, hreg]⟩

theorem register_canceled {ct : Option ℕ} (h : s.registersCanceled ct = true) :
    s.signaler.register (s.token ct) = AsyncSignaler.setException
      { s.signaler with cancellationToken := (s.token ct).map CancellationToken.source } := by
  obtain ⟨hreg, hcanceled⟩ := Bool.and_eq_true_iff.mp h
  simp [AsyncSignaler.register, hreg, hcanceled]

theorem Follows.opened {ct : Option ℕ} (h : s.Sound)
    (hone : t.signaler.requests = 1) (hw : t.awaiting = some t.signaler.manualReset.version)
    (hopen : t.signaler.manualReset.completed = false)
    (hsame : t.signaler.responses = s.signaler.responses ∧ t.stored = s.stored)
    (hnot : ¬ s.Breaks (.await ct)) : Follows s (.await ct) t := by
  refine .kept ⟨?_, fun hnone => ?_, ?_, ?_⟩ ?_ hnot
  · intro version hversion
    exact Option.some.inj (hversion.symm.trans hw)
  · rw [hw] at hnone
    cases hnone
  · rw [hsame.1, hsame.2, h.stored]
  · rw [hsame.2]
    exact h.range
  · simp [outstanding, hw, hopen, hone]

theorem follows_await_fresh (h : s.Sound) (hb : s.Balanced) {ct : Option ℕ}
    (hw : s.awaiting = none) (hr : s.signaler.responses ≤ 0)
    (hfresh : s.registersCanceled ct = false) : Follows s (.await ct) (s.await ct) := by
  have hzero : s.signaler.requests = 0 := by simpa [outstanding, hw] using hb.requests
  have hnone : ¬ s.signaler.responses > 0 := by omega
  have hone : int32 1 = 1 := by decide
  obtain ⟨registered, hregister⟩ := register_fresh hfresh
  have hawait : s.signaler.await (s.token ct) =
      ({ s.signaler with cancellationToken := registered, requests := 1 },
        .ok (.source s.signaler.manualReset.version)) := by
    simp [AsyncSignaler.await, hnone, hregister, hzero, hone]
  obtain ⟨registrations, ht⟩ : ∃ registrations, s.await ct = { s with
      signaler := { s.signaler with cancellationToken := registered, requests := 1 }
      registrations
      awaiting := some s.signaler.manualReset.version } :=
    ⟨_, by simp only [await, hawait]; rfl⟩
  rw [ht]
  cases hdone : s.signaler.manualReset.completed with
  | true =>
    refine .broken ⟨hw, hr, hdone, hfresh⟩ fun hbalanced => ?_
    have hrequests := hbalanced.requests
    simp [outstanding, hdone] at hrequests
  | false =>
    refine .opened h rfl rfl hdone ⟨rfl, rfl⟩ fun hbreaks => ?_
    have hcompleted := hbreaks.2.2.1
    rw [hdone] at hcompleted
    cases hcompleted

theorem follows_await_canceled (h : s.Sound) (hb : s.Balanced) {ct : Option ℕ}
    (hw : s.awaiting = none) (hr : s.signaler.responses ≤ 0)
    (hcanceled : s.registersCanceled ct = true) : Follows s (.await ct) (s.await ct) := by
  have hzero : s.signaler.requests = 0 := by simpa [outstanding, hw] using hb.requests
  have hnone : ¬ s.signaler.responses > 0 := by omega
  have hnot : ¬ s.Breaks (.await ct) := by
    rintro ⟨-, -, -, hfresh⟩
    rw [hcanceled] at hfresh
    cases hfresh
  let registered := (s.token ct).map CancellationToken.source
  let signaler : AsyncSignaler := { s.signaler with cancellationToken := registered }
  have hregister : s.signaler.register (s.token ct) = signaler.setException :=
    register_canceled hcanceled
  cases hdone : s.signaler.manualReset.completed with
  | true =>
    rw [setException_completed (s := signaler) hdone] at hregister
    obtain ⟨registrations, ht⟩ : ∃ registrations, s.await ct = { s with
        signaler := { s.signaler with
          cancellationToken := registered
          manualReset := { s.signaler.manualReset with error := true } }
        registrations } :=
      ⟨_, by simp only [await, AsyncSignaler.await, hnone, if_false, hregister]; rfl⟩
    rw [ht]
    refine .kept ⟨h.version, fun _ _ => rfl, h.stored, h.range⟩ ?_ hnot
    simpa [outstanding, hw] using hzero
  | false =>
    rw [setException_open (s := signaler) hdone] at hregister
    have hnext : int32 (signaler.requests + 1) = 1 := by
      change int32 (s.signaler.requests + 1) = 1
      rw [hzero]
      decide
    obtain ⟨registrations, ht⟩ : ∃ registrations, s.await ct = { s with
        signaler := { s.signaler with
          cancellationToken := registered
          manualReset := s.signaler.manualReset.reset
          requests := 1 }
        registrations
        awaiting := some s.signaler.manualReset.reset.version } :=
      ⟨_, by
        simp only [await, AsyncSignaler.await, hnone, if_false, hregister, hnext]
        rfl⟩
    rw [ht]
    exact .opened h rfl rfl rfl ⟨rfl, rfl⟩ hnot

/-! ### Cancellations -/

/-- What callbacks leave as it is while no wait is open. -/
structure Untouched (s t : SignalerSession) : Prop where
  sound : t.Sound
  closed : t.outstanding = false
  requests : t.signaler.requests = s.signaler.requests

theorem callback_closed (h : s.Sound) (hclosed : s.outstanding = false) :
    Untouched s s.callback := by
  cases hdone : s.signaler.manualReset.completed with
  | true =>
    have ht : s.callback = { s with signaler := { s.signaler with
        manualReset := { s.signaler.manualReset with error := true } } } := by
      simp [callback, setException_completed hdone, hclosed]
    rw [ht]
    exact ⟨⟨h.version, fun _ _ => rfl, h.stored, h.range⟩, by simp [outstanding, hdone], rfl⟩
  | false =>
    have hw : s.awaiting = none := by
      by_contra hw
      rw [h.outstanding_iff.mpr ⟨hw, hdone⟩] at hclosed
      cases hclosed
    have ht : s.callback = { s with signaler := { s.signaler with
        manualReset := s.signaler.manualReset.reset } } := by
      simp [callback, setException_open hdone, hclosed]
    rw [ht]
    refine ⟨⟨by simp [hw], ?_, h.stored, h.range⟩, by simp [outstanding, hw], rfl⟩
    intro _ hc
    simp [ManualResetValueTaskSourceCore.reset] at hc

theorem callbacks_closed (h : s.Sound) (hclosed : s.outstanding = false) (l : List ℕ) :
    Untouched s (l.foldl (fun s _ => s.callback) s) := by
  induction l generalizing s with
  | nil => exact ⟨h, hclosed, rfl⟩
  | cons x l ih =>
    have hone := callback_closed h hclosed
    have hrest := ih hone.sound hone.closed
    exact ⟨hrest.sound, hrest.closed, hrest.requests.trans hone.requests⟩

theorem callback_open (h : s.Sound) (hopen : s.outstanding = true) :
    Untouched s s.callback := by
  obtain ⟨-, hdone⟩ := h.outstanding_iff.mp hopen
  have ht : s.callback = { s with
      signaler := { s.signaler with manualReset := s.signaler.manualReset.reset }
      awaiting := none } := by
    simp [callback, setException_open hdone, hopen]
  rw [ht]
  refine ⟨⟨by simp, ?_, h.stored, h.range⟩, rfl, rfl⟩
  intro _ hc
  simp [ManualResetValueTaskSourceCore.reset] at hc

theorem follows_cancel (h : s.Sound) (hb : s.Balanced) (source : ℕ) :
    Follows s (.cancel source) (s.cancel source) := by
  by_cases hdone : source ∈ s.canceledSources
  · have hsame : s.cancel source = s := by simp [cancel, hdone]
    rw [hsame]
    exact .kept h hb.requests fun hbreaks => hbreaks.1 hdone
  let marked : SignalerSession := { s with canceledSources := source :: s.canceledSources }
  have hmarked : marked.Sound := ⟨h.version, h.left, h.stored, h.range⟩
  have hcancel : s.cancel source =
      (s.registrations.filter (· = source)).foldl (fun s _ => s.callback) marked := by
    simp [cancel, hdone, marked]
  have hmem : source ∈ s.registrations ↔ s.registrations.filter (· = source) ≠ [] := by
    simp [List.filter_eq_nil_iff]
  rw [hcancel]
  cases hopen : s.outstanding with
  | false =>
    have hrest := callbacks_closed hmarked hopen (s.registrations.filter (· = source))
    refine .kept hrest.sound ?_ fun hbreaks => ?_
    · rw [hrest.requests, hrest.closed]
      simpa [hopen] using hb.requests
    · have hstill := hbreaks.2.2
      rw [hopen] at hstill
      cases hstill
  | true =>
    cases hfilter : s.registrations.filter (· = source) with
    | nil =>
      have hbalanced : marked.signaler.requests = if marked.outstanding then 1 else 0 := hb.requests
      exact .kept hmarked hbalanced fun hbreaks => hmem.mp hbreaks.2.1 hfilter
    | cons x l =>
      have hfirst := callback_open hmarked hopen
      have hrest := callbacks_closed hfirst.sound hfirst.closed l
      refine .broken ⟨hdone, hmem.mpr (by simp [hfilter]), hopen⟩ fun hbalanced => ?_
      have hrequests := hbalanced.requests
      rw [List.foldl_cons, hrest.requests, hfirst.requests, hrest.closed] at hrequests
      have hone : s.signaler.requests = 1 := by simpa [hopen] using hb.requests
      rw [show marked.signaler.requests = 1 from hone] at hrequests
      simp at hrequests

/-! ### Runs -/

theorem follows {a : SignalerCall} (h : s.Sound) (hb : s.Balanced) (hs : s.step a = .ok t) :
    Follows s a t := by
  cases a with
  | await ct =>
    simp only [step] at hs
    split_ifs at hs with hw
    cases hs
    by_cases hr : 0 < s.signaler.responses
    · exact follows_await_stored h hb ct hr
    · cases hreg : s.registersCanceled ct with
      | true => exact follows_await_canceled h hb hw (by omega) hreg
      | false => exact follows_await_fresh h hb hw (by omega) hreg
  | getResult => exact follows_getResult h hb hs
  | set =>
    cases hs
    cases hopen : s.outstanding with
    | true => exact follows_set_open h hb hopen
    | false => exact follows_set_closed h hb hopen
  | cancel source =>
    cases hs
    exact follows_cancel h hb source

end SignalerSession

/-- A run keeps its signals just when no step of it breaks the balance. -/
theorem keepsSignals_iff (calls : List SignalerCall) :
    SignalerSession.KeepsSignals calls ↔
      Along SignalerSession.step (fun s a => ¬ s.Breaks a) {} calls := by
  have hstart : SignalerSession.Sound {} := ⟨by simp, by simp, rfl, by decide⟩
  refine reached_iff_along (I := SignalerSession.Sound) ?_ ?_ ?_ hstart
    (hstart.balanced_iff.mpr rfl)
  · intro s a _ _
    cases a with
    | await ct =>
      by_cases hw : s.awaiting = none
      · exact .inl ⟨_, if_pos hw⟩
      · exact .inr fun hbreaks => hw hbreaks.1
    | getResult => exact .inr fun hbreaks => hbreaks
    | set => exact .inl ⟨_, rfl⟩
    | cancel source => exact .inl ⟨_, rfl⟩
  · intro s a t h hb hs ht
    exact (SignalerSession.follows h hb hs).sound ht
  · intro s a t h hb hs
    exact (SignalerSession.follows h hb hs).balanced

/-- One wait and the cancellation of its token: the wait stays counted. -/
theorem not_keepsSignals_canceled_wait :
    ¬ SignalerSession.KeepsSignals [.await (some 0), .cancel 0] := by
  intro h
  have hb := h _ (reached_of_run rfl)
  exact absurd hb.requests (by decide)

end DecodingProxy.Threading
