import DecodingProxy.Threading.AsyncAutoResetEvent
import Mathlib.Tactic.Common

/-!
# `AsyncAutoResetEvent<T>` between one setter and one waiter

A task that sets and a task that waits for what it set before it waits again. The queue
then has one entry at most, and what has been set and not been taken is in the queue or
in the task the waiter holds.
-/

namespace DecodingProxy.Threading
open DecodingProxy.Runtime

universe u
variable {T : Type u}

/-- The queue of an event nobody waits for, with the number of values in it. -/
inductive Stored (e : AsyncAutoResetEvent T) : ℕ → Prop
  | empty (queue : e.waits = []) : Stored e 0
  | value (c : TaskId) (v : T) (queue : e.waits = [c]) (done : e.tasks[c]? = some (.result v)) :
    Stored e 1
  | canceled (c : TaskId) (queue : e.waits = [c]) (done : e.tasks[c]? = some .canceled) :
    Stored e 0

/-- The event, the task its waiter holds, and the number of values on their way. -/
inductive Mailbox (e : AsyncAutoResetEvent T) : Option TaskId → ℕ → Prop
  | idle {n : ℕ} (stored : Stored e n) : Mailbox e none n
  | pending (t : TaskId) (queue : e.waits = [t]) (task : e.tasks[t]? = some .pending)
    (active : e.isCanceled = false) : Mailbox e (some t) 0
  | answered (t : TaskId) (v : T) {n : ℕ} (task : e.tasks[t]? = some (.result v))
    (stored : Stored e n) : Mailbox e (some t) (n + 1)
  | canceled (t : TaskId) {n : ℕ} (task : e.tasks[t]? = some .canceled) (stored : Stored e n) :
    Mailbox e (some t) n

/-- The waiter holds a task that only another call of the event can complete. -/
def AsyncAutoResetEvent.Open (e : AsyncAutoResetEvent T) (wait : Option TaskId) : Prop :=
  ∃ t, wait = some t ∧ e.tasks[t]? = some .pending

section Events
variable {e : AsyncAutoResetEvent T} {wait : Option TaskId} {n : ℕ}

theorem Mailbox.new : Mailbox ({} : AsyncAutoResetEvent T) none 0 := .idle (.empty rfl)

theorem not_open_of_task {t : TaskId} {state : TaskState T} (task : e.tasks[t]? = some state)
    (hne : state ≠ .pending) : ¬ e.Open (some t) := by
  rintro ⟨t', ht, hp⟩
  cases ht
  rw [task] at hp
  exact hne (Option.some.inj hp)

theorem Mailbox.active (h : Mailbox e wait n) (ho : e.Open wait) : e.isCanceled = false := by
  cases h with
  | idle stored =>
    obtain ⟨t, ht, -⟩ := ho
    cases ht
  | pending t queue task active => exact active
  | answered t v task stored => exact absurd ho (not_open_of_task task nofun)
  | canceled t task stored => exact absurd ho (not_open_of_task task nofun)

theorem Stored.congr {e' : AsyncAutoResetEvent T} (h : Stored e n) (hwaits : e'.waits = e.waits)
    (htasks : e'.tasks = e.tasks) : Stored e' n := by
  cases h with
  | empty queue => exact .empty (by rw [hwaits, queue])
  | value c v queue done => exact .value c v (by rw [hwaits, queue]) (by rw [htasks, done])
  | canceled c queue done => exact .canceled c (by rw [hwaits, queue]) (by rw [htasks, done])

theorem Mailbox.congr {e' : AsyncAutoResetEvent T} (h : Mailbox e wait n)
    (hwaits : e'.waits = e.waits) (htasks : e'.tasks = e.tasks)
    (hcanceled : e'.isCanceled = e.isCanceled) : Mailbox e' wait n := by
  cases h with
  | idle stored => exact .idle (stored.congr hwaits htasks)
  | pending t queue task active =>
    exact .pending t (by rw [hwaits, queue]) (by rw [htasks, task]) (by rw [hcanceled, active])
  | answered t v task stored =>
    exact .answered t v (by rw [htasks, task]) (stored.congr hwaits htasks)
  | canceled t task stored =>
    exact .canceled t (by rw [htasks, task]) (stored.congr hwaits htasks)

/-! ### A value is set -/

/-- A value finds the queue empty, or it throws away the entry it finds there. -/
theorem Stored.setUnsafe (h : Stored e n) (v : T) :
    (e.waits = [] ∧ (e.setUnsafe v).2 = .ok () ∧
        (e.setUnsafe v).1 = { e with
          waits := [e.tasks.length]
          tasks := e.tasks ++ [if e.isCanceled then .canceled else .result v] }) ∨
      (e.waits ≠ [] ∧ (e.setUnsafe v).2 = .error (.raised .invalidOperation) ∧
        (e.setUnsafe v).1 = { e with waits := [] }) := by
  cases h with
  | empty queue =>
    refine .inl ⟨queue, ?_, ?_⟩ <;>
      simp [AsyncAutoResetEvent.setUnsafe, AsyncAutoResetEvent.newSource,
        AsyncAutoResetEvent.enqueue, queue]
  | value c w queue done =>
    refine .inr ⟨by simp [queue], ?_, ?_⟩ <;>
      simp [AsyncAutoResetEvent.setUnsafe, AsyncAutoResetEvent.transition, queue, done]
  | canceled c queue done =>
    refine .inr ⟨by simp [queue], ?_, ?_⟩ <;>
      simp [AsyncAutoResetEvent.setUnsafe, AsyncAutoResetEvent.transition, queue, done]

theorem Stored.after_setUnsafe (h : Stored e n) (v : T) :
    ∃ m ≤ n + 1, Stored (e.setUnsafe v).1 m := by
  obtain ⟨hq, -, he⟩ | ⟨hq, -, he⟩ := h.setUnsafe v
  · by_cases hc : e.isCanceled
    · refine ⟨0, Nat.zero_le _, ?_⟩
      rw [he]
      exact .canceled e.tasks.length rfl (by simp [hc])
    · refine ⟨1, Nat.le_add_left 1 n, ?_⟩
      rw [he]
      exact .value e.tasks.length v rfl (by simp [hc])
  · exact ⟨0, Nat.zero_le _, by rw [he]; exact .empty rfl⟩

theorem Stored.setUnsafe_tasks (h : Stored e n) (v : T) {t : TaskId} {state : TaskState T}
    (ht : e.tasks[t]? = some state) : (e.setUnsafe v).1.tasks[t]? = some state := by
  obtain ⟨-, -, he⟩ | ⟨-, -, he⟩ := h.setUnsafe v
  · rw [he]
    exact (List.getElem?_append_left (List.getElem?_eq_some_iff.mp ht).1).trans ht
  · rw [he]
    exact ht

theorem setUnsafe_pending (v : T) {t : TaskId} (queue : e.waits = [t])
    (task : e.tasks[t]? = some .pending) (active : e.isCanceled = false) :
    e.setUnsafe v = ({ e with waits := [], tasks := e.tasks.set t (.result v) }, .ok ()) := by
  simp [AsyncAutoResetEvent.setUnsafe, AsyncAutoResetEvent.transition, queue, task, active]

theorem Mailbox.setUnsafe (h : Mailbox e wait n) (v : T) :
    ∃ m ≤ n + 1, Mailbox (e.setUnsafe v).1 wait m := by
  cases h with
  | idle stored =>
    obtain ⟨m, hm, hs⟩ := stored.after_setUnsafe v
    exact ⟨m, hm, .idle hs⟩
  | pending t queue task active =>
    have ht : t < e.tasks.length := (List.getElem?_eq_some_iff.mp task).1
    rw [setUnsafe_pending v queue task active]
    exact ⟨1, Nat.le_refl 1, .answered t v (by simp [ht]) (.empty rfl)⟩
  | answered t w task stored =>
    obtain ⟨m, hm, hs⟩ := stored.after_setUnsafe v
    exact ⟨m + 1, by omega, .answered t w (stored.setUnsafe_tasks v task) hs⟩
  | canceled t task stored =>
    obtain ⟨m, hm, hs⟩ := stored.after_setUnsafe v
    exact ⟨m, hm, .canceled t (stored.setUnsafe_tasks v task) hs⟩

theorem Mailbox.setUnsafe_error (h : Mailbox e wait n) (v : T) {fault : Fault}
    (herror : (e.setUnsafe v).2 = .error fault) :
    ∃ m ≤ n, Mailbox (e.setUnsafe v).1 wait m := by
  cases h with
  | idle stored =>
    obtain ⟨-, hok, -⟩ | ⟨-, -, he⟩ := stored.setUnsafe v
    · rw [hok] at herror
      cases herror
    · exact ⟨0, Nat.zero_le _, by rw [he]; exact .idle (.empty rfl)⟩
  | pending t queue task active =>
    rw [setUnsafe_pending v queue task active] at herror
    cases herror
  | answered t w task stored =>
    obtain ⟨-, hok, -⟩ | ⟨-, -, he⟩ := stored.setUnsafe v
    · rw [hok] at herror
      cases herror
    · exact ⟨1, by omega, by rw [he]; exact .answered t w task (.empty rfl)⟩
  | canceled t task stored =>
    obtain ⟨-, hok, -⟩ | ⟨-, -, he⟩ := stored.setUnsafe v
    · rw [hok] at herror
      cases herror
    · exact ⟨0, Nat.zero_le _, by rw [he]; exact .canceled t task (.empty rfl)⟩

theorem Mailbox.setUnsafe_not_open (h : Mailbox e wait n) (v : T) :
    ¬ (e.setUnsafe v).1.Open wait := by
  cases h with
  | idle stored =>
    rintro ⟨t, ht, -⟩
    cases ht
  | pending t queue task active =>
    have ht : t < e.tasks.length := (List.getElem?_eq_some_iff.mp task).1
    have task' : (e.setUnsafe v).1.tasks[t]? = some (.result v) := by
      simp [setUnsafe_pending v queue task active, ht]
    exact not_open_of_task task' nofun
  | answered t w task stored => exact not_open_of_task (stored.setUnsafe_tasks v task) nofun
  | canceled t task stored => exact not_open_of_task (stored.setUnsafe_tasks v task) nofun

theorem Mailbox.setUnsafe_queue (h : Mailbox e none n) (v : T)
    (hok : (e.setUnsafe v).2 = .ok ()) : (e.setUnsafe v).1.waits ≠ [] := by
  cases h with
  | idle stored =>
    obtain ⟨-, -, he⟩ | ⟨-, herror, -⟩ := stored.setUnsafe v
    · rw [he]
      exact List.cons_ne_nil _ _
    · rw [herror] at hok
      cases hok

@[simp] theorem setUnsafe_isCompleted (e : AsyncAutoResetEvent T) (v : T) :
    (e.setUnsafe v).1.isCompleted = e.isCompleted := by
  unfold AsyncAutoResetEvent.setUnsafe AsyncAutoResetEvent.transition
  cases e.waits with
  | nil => rfl
  | cons c waits => dsimp only; split <;> rfl

/-! ### The event is cancelled -/

theorem Stored.cancel (h : Stored e n) :
    e.cancel.1 = { e with isCanceled := true } := by
  cases h with
  | empty queue => simp [AsyncAutoResetEvent.cancel, AsyncAutoResetEvent.cancelAll, queue]
  | value c v queue done =>
    simp [AsyncAutoResetEvent.cancel, AsyncAutoResetEvent.cancelAll,
      AsyncAutoResetEvent.transition, queue, done]
  | canceled c queue done =>
    simp [AsyncAutoResetEvent.cancel, AsyncAutoResetEvent.cancelAll,
      AsyncAutoResetEvent.transition, queue, done]

theorem cancel_pending {t : TaskId} (queue : e.waits = [t])
    (task : e.tasks[t]? = some .pending) :
    e.cancel.1 = { e with isCanceled := true, tasks := e.tasks.set t .canceled } := by
  simp [AsyncAutoResetEvent.cancel, AsyncAutoResetEvent.cancelAll,
    AsyncAutoResetEvent.transition, queue, task]

theorem Mailbox.cancel (h : Mailbox e wait n) : Mailbox e.cancel.1 wait n := by
  cases h with
  | idle stored =>
    rw [stored.cancel]
    exact .idle (stored.congr rfl rfl)
  | pending t queue task active =>
    have ht : t < e.tasks.length := (List.getElem?_eq_some_iff.mp task).1
    rw [cancel_pending queue task]
    exact .canceled t (by simp [ht]) (.canceled t queue (by simp [ht]))
  | answered t v task stored =>
    rw [stored.cancel]
    exact .answered t v task (stored.congr rfl rfl)
  | canceled t task stored =>
    rw [stored.cancel]
    exact .canceled t task (stored.congr rfl rfl)

theorem Mailbox.cancel_fields (h : Mailbox e wait n) :
    e.cancel.1.isCanceled = true ∧ e.cancel.1.waits = e.waits ∧
      e.cancel.1.isCompleted = e.isCompleted := by
  cases h with
  | idle stored => simp [stored.cancel]
  | pending t queue task active => simp [cancel_pending queue task]
  | answered t v task stored => simp [stored.cancel]
  | canceled t task stored => simp [stored.cancel]

theorem Mailbox.cancel_not_open (h : Mailbox e wait n) : ¬ e.cancel.1.Open wait := by
  intro ho
  have hactive := h.cancel.active ho
  rw [h.cancel_fields.1] at hactive
  cases hactive

/-! ### The waiter waits and takes -/

theorem Mailbox.register (h : Mailbox e wait n) (token : Option CancellationToken) :
    Mailbox (e.register token).1 wait n ∧ (e.register token).1.waits = e.waits ∧
      (e.register token).1.isCompleted = e.isCompleted ∧
      (e.isCanceled = true → (e.register token).1.isCanceled = true) := by
  unfold AsyncAutoResetEvent.register
  cases token with
  | none => exact ⟨h, rfl, rfl, id⟩
  | some token =>
    dsimp only
    split
    · have hm : Mailbox { e with cancellationToken := some token } wait n := h.congr rfl rfl rfl
      split_ifs with hc
      · exact ⟨hm.cancel, hm.cancel_fields.2.1, hm.cancel_fields.2.2, fun _ => hm.cancel_fields.1⟩
      · exact ⟨hm, rfl, rfl, id⟩
    · split_ifs
      · exact ⟨h, rfl, rfl, id⟩
      · exact ⟨h, rfl, rfl, id⟩

theorem Mailbox.takeOrEnqueue (h : Mailbox e none n) :
    Mailbox e.takeOrEnqueue.1 (some e.takeOrEnqueue.2) n ∧
      (e.waits ≠ [] → ¬ e.takeOrEnqueue.1.Open (some e.takeOrEnqueue.2)) := by
  cases h with
  | idle stored =>
    cases stored with
    | empty queue =>
      refine ⟨?_, fun hne => absurd queue hne⟩
      by_cases hc : e.isCanceled
      · simp only [AsyncAutoResetEvent.takeOrEnqueue, AsyncAutoResetEvent.newSource, queue, hc,
          if_true]
        exact .canceled e.tasks.length (by simp) (.empty rfl)
      · simp only [AsyncAutoResetEvent.takeOrEnqueue, AsyncAutoResetEvent.newSource,
          AsyncAutoResetEvent.enqueue, queue, hc, if_false, Bool.false_eq_true]
        exact .pending e.tasks.length rfl (by simp) rfl
    | value c v queue done =>
      simp only [AsyncAutoResetEvent.takeOrEnqueue, queue]
      exact ⟨.answered c v done (.empty rfl), fun _ => not_open_of_task done nofun⟩
    | canceled c queue done =>
      simp only [AsyncAutoResetEvent.takeOrEnqueue, queue]
      exact ⟨.canceled c done (.empty rfl), fun _ => not_open_of_task done nofun⟩

@[simp] theorem takeOrEnqueue_flags (e : AsyncAutoResetEvent T) :
    e.takeOrEnqueue.1.isCanceled = e.isCanceled ∧
      e.takeOrEnqueue.1.isCompleted = e.isCompleted := by
  unfold AsyncAutoResetEvent.takeOrEnqueue AsyncAutoResetEvent.newSource
    AsyncAutoResetEvent.enqueue
  split
  · exact ⟨rfl, rfl⟩
  · split_ifs with hc <;> simp

theorem Mailbox.take {t : TaskId} {v : T} (h : Mailbox e (some t) n)
    (task : e.tasks[t]? = some (.result v)) : ∃ m, n = m + 1 ∧ Mailbox e none m := by
  cases h with
  | pending _ queue hp => rw [hp] at task; cases task
  | answered _ w _ stored => exact ⟨_, rfl, .idle stored⟩
  | canceled _ hc => rw [hc] at task; cases task

theorem Mailbox.leave {t : TaskId} (h : Mailbox e (some t) n)
    (task : e.tasks[t]? = some .canceled) : Mailbox e none n := by
  cases h with
  | pending _ queue hp => rw [hp] at task; cases task
  | answered _ w hv => rw [hv] at task; cases task
  | canceled _ _ stored => exact .idle stored

end Events

end DecodingProxy.Threading
