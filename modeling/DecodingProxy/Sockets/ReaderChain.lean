import DecodingProxy.Sockets.SocketReader

/-!
# The links after any calls

`Initilize` and `Dispose` come in any order and for any reader; a reader in the middle may go
before those that read from it. A call that throws is one on a reader that is in the wrong state.
-/

namespace DecodingProxy.Sockets
open DecodingProxy.Chains DecodingProxy.Runtime

inductive LinkCall
  | initilize (n : ℕ)
  | dispose (n : ℕ)
  deriving DecidableEq, Repr

namespace WrapReaders

variable {rs : List ReaderId} {s : WrapReaders} {r : ReaderId}

/-- The state after a call that may throw, where nothing is changed before the throw. -/
def attempt (s : WrapReaders) : Except Fault WrapReaders → WrapReaders
  | .ok t => t
  | .error _ => s

def link (s : WrapReaders) : LinkCall → WrapReaders
  | .initilize n => s.attempt (s.initilize (.reader n))
  | .dispose n => s.attempt (s.dispose (.reader n))

/-- The readers that are live after a call, the one that came last at the end. -/
def liveAfter (live : List ReaderId) : LinkCall → List ReaderId
  | .initilize n => if .reader n ∈ live then live else live ++ [.reader n]
  | .dispose n => live.erase (.reader n)

/-- A reader that is not live has no one to hand over, and the wrap is not there to be told. -/
theorem Holds.dispose_dead (h : s.Holds rs) (hraw : r ≠ .raw) (hr : r ∉ rs) :
    s.handOver r = s ∧ s.dispose r = .error (.raised .nullReference) := by
  have hdead := h.dead r hraw hr
  have hhand : s.handOver r = s := by
    have hself : Function.update s.readers r {} = s.readers := by
      rw [← hdead, Function.update_eq_self]
    simp [handOver, WrapReaders.binds, WrapReaders.set, hdead, hself]
  refine ⟨hhand, ?_⟩
  have hunlink : s.unlink r = .error (.raised .nullReference) := by
    unfold unlink
    rw [show s.destination r = none by simp [WrapReaders.destination, hdead]]
    exact if_pos (by rw [hdead])
  unfold WrapReaders.dispose
  rw [hhand, hunlink]
  rfl

theorem Holds.link (h : s.Holds rs) (call : LinkCall) :
    (s.link call).Holds (liveAfter rs call) := by
  cases call with
  | initilize n =>
    by_cases hn : .reader n ∈ rs
    · rw [liveAfter, if_pos hn, WrapReaders.link, h.initilize_live hn]
      exact h
    · obtain ⟨t, ht, hholds, -⟩ := h.initilize ReaderId.noConfusion hn
      rw [liveAfter, if_neg hn, WrapReaders.link, ht]
      exact hholds
  | dispose n =>
    by_cases hn : .reader n ∈ rs
    · obtain ⟨a, t, ht, hholds, -⟩ := h.dispose hn
      rw [WrapReaders.link, ht]
      exact hholds
    · rw [liveAfter, List.erase_of_not_mem hn, WrapReaders.link,
        (h.dispose_dead ReaderId.noConfusion hn).2]
      exact h

theorem Holds.links (h : s.Holds rs) (calls : List LinkCall) :
    (calls.foldl WrapReaders.link s).Holds (calls.foldl liveAfter rs) := by
  induction calls generalizing s rs with
  | nil => exact h
  | cons call calls ih => exact ih (h.link call)

/-- However far the links are followed, they give the live readers and the raw one, in the order
in which they came and backwards. -/
theorem links_in_order (calls : List LinkCall) (k : ℕ) :
    let s := calls.foldl link start
    let live := calls.foldl liveAfter []
    (∀ n, (s.readers (.reader n)).isDisposed = false ↔ .reader n ∈ live) ∧
      follow s.destination (live.length + 1 + k) (some .raw) = .raw :: live ∧
      follow s.source (live.length + 1 + k) s.reader = (.raw :: live).reverse ∧
      s.reader = (.raw :: live).getLast? := by
  have h := holds_start.links calls
  refine ⟨fun n => h.live_iff ReaderId.noConfusion, ?_, ?_, h.last⟩
  · exact h.chain.follow_eq (by rw [List.length_cons]; omega)
  · have hback := h.chain.reverse fun r hr => by
      obtain rfl := Option.some.inj hr
      exact h.first
    rw [h.last]
    exact hback.follow_eq (by rw [List.length_reverse, List.length_cons]; omega)

/-- Three readers, of which the one in the middle goes first. -/
example :
    let s := [LinkCall.initilize 1, .initilize 2, .initilize 3, .dispose 2].foldl link start
    follow s.destination 4 (some .raw) = [.raw, .reader 1, .reader 3] ∧
      follow s.source 4 s.reader = [.reader 3, .reader 1, .raw] := by
  decide

end WrapReaders

end DecodingProxy.Sockets
