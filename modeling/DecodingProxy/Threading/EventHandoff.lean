import DecodingProxy.Threading.AsyncAutoResetEvent
import Mathlib.Tactic.Common

/-!
# `AsyncAutoResetEvent<T>` as a hand-off

A run mixes `Set` and `WaitAsync` calls in any order. What it should give is the
pairing of `DecodingProxy.Handoff`: the `k`-th wait holds the `k`-th value. The
queue carries that pairing only while it has at most one entry of one kind, and
the invariant below says what the queue holds as long as every `Set` finds the
waits level with the sets or one ahead.
-/

namespace DecodingProxy.Threading
open DecodingProxy.Runtime DecodingProxy.Runs DecodingProxy.Handoff

universe u
variable {T : Type u}

inductive Call (T : Type u)
  | set (value : T)
  | waitAsync
  deriving DecidableEq, Repr

/-- The event and, in call order, the tasks its `WaitAsync` calls returned. -/
structure History (T : Type u) where
  event : AsyncAutoResetEvent T := {}
  returned : List TaskId := []
  deriving DecidableEq, Repr

def History.call (h : History T) : Call T → Except Fault (History T)
  | .set value =>
    match h.event.set value with
    | (e, .ok ()) => .ok { h with event := e }
    | (_, .error fault) => .error fault
  | .waitAsync =>
    match h.event.waitAsync none with
    | (e, .ok task) => .ok ⟨e, h.returned ++ [task]⟩
    | (_, .error fault) => .error fault

def History.states (h : History T) : List (Option (TaskState T)) :=
  h.returned.map fun t => h.event.tasks[t]?

def values : List (Call T) → List T
  | [] => []
  | .set value :: calls => value :: values calls
  | .waitAsync :: calls => values calls

def waitCount : List (Call T) → ℕ
  | [] => 0
  | .set _ :: calls => waitCount calls
  | .waitAsync :: calls => waitCount calls + 1

@[simp] theorem values_append (as bs : List (Call T)) :
    values (as ++ bs) = values as ++ values bs := by
  induction as with
  | nil => rfl
  | cons a as ih => cases a <;> simp [values, ih]

@[simp] theorem waitCount_append (as bs : List (Call T)) :
    waitCount (as ++ bs) = waitCount as + waitCount bs := by
  induction as with
  | nil => simp [waitCount]
  | cons a as ih =>
    cases a with
    | set value => simp [waitCount, ih]
    | waitAsync => simp [waitCount, ih]; omega

@[simp] theorem values_set (v : T) : values [.set v] = [v] := rfl
@[simp] theorem values_wait : values [(.waitAsync : Call T)] = [] := rfl
@[simp] theorem waitCount_set (v : T) : waitCount [.set v] = 0 := rfl
@[simp] theorem waitCount_wait : waitCount [(.waitAsync : Call T)] = 1 := rfl

/-- An open request is a task nobody has completed, a served one holds its item. -/
def TaskState.ofAnswer : Option T → TaskState T
  | none => .pending
  | some value => .result value

/-- The `k`-th wait is completed with the `k`-th value once both calls are made,
and pending until then. -/
def Answered (calls : List (Call T)) (h : History T) : Prop :=
  h.states = (served (values calls) (waitCount calls)).map fun a => some (.ofAnswer a)

/-- No call of the run throws, and after each of them the waits are answered. -/
def LosslessHandoff (calls : List (Call T)) : Prop :=
  ∀ made, made <+: calls → ∃ h, run History.call {} made = .ok h ∧ Answered made h

/-- Every `Set` finds the waits level with the sets, or one ahead. -/
def SetsInTurn (calls : List (Call T)) : Prop :=
  ∀ made value, made ++ [.set value] <+: calls →
    (values made).length ≤ waitCount made ∧ waitCount made ≤ (values made).length + 1

/-- What the queue holds after `sets` sets and `waits` waits. -/
inductive QueueShape (sets : List T) (waits : ℕ) (h : History T) : Prop
  | stored (c : TaskId) (v : T) (ahead : sets.length = waits + 1)
      (queue : h.event.waits = [c]) (done : h.event.tasks[c]? = some (.result v))
      (last : sets[waits]? = some v)
  | empty (j : ℕ) (level : waits = sets.length + 2 * j) (queue : h.event.waits = [])
  | waiting (j : ℕ) (c : TaskId) (earlier : List TaskId)
      (behind : waits = sets.length + 2 * j + 1) (queue : h.event.waits = [c])
      (pending : h.event.tasks[c]? = some .pending)
      (tasks : h.returned = earlier ++ [c]) (fresh : c ∉ earlier)

structure Balanced (calls : List (Call T)) (h : History T) : Prop where
  answered : Answered calls h
  shape : QueueShape (values calls) (waitCount calls) h
  active : h.event.isCanceled = false
  incomplete : h.event.isCompleted = false

/-! ### What one call does to the queue -/

section Calls
variable {h : History T} (active : h.event.isCanceled = false)
  (incomplete : h.event.isCompleted = false)
include active incomplete

theorem call_set_empty (v : T) (queue : h.event.waits = []) :
    h.call (.set v) = .ok { h with event := { h.event with
      waits := [h.event.tasks.length], tasks := h.event.tasks ++ [.result v] } } := by
  simp [History.call, AsyncAutoResetEvent.set, AsyncAutoResetEvent.setUnsafe,
    AsyncAutoResetEvent.newSource, AsyncAutoResetEvent.enqueue, active, incomplete, queue]

theorem call_set_pending (v : T) {c : TaskId} {rest : List TaskId}
    (queue : h.event.waits = c :: rest) (pending : h.event.tasks[c]? = some .pending) :
    h.call (.set v) = .ok { h with event := { h.event with
      waits := rest, tasks := h.event.tasks.set c (.result v) } } := by
  simp [History.call, AsyncAutoResetEvent.set, AsyncAutoResetEvent.setUnsafe,
    AsyncAutoResetEvent.transition, active, incomplete, queue, pending]

/-- The entry dequeued by `Set` may already be completed: `SetResult` throws. -/
theorem call_set_stored (v : T) {c : TaskId} {rest : List TaskId} {w : T}
    (queue : h.event.waits = c :: rest) (done : h.event.tasks[c]? = some (.result w)) :
    h.call (.set v) = .error (.raised .invalidOperation) := by
  simp [History.call, AsyncAutoResetEvent.set, AsyncAutoResetEvent.setUnsafe,
    AsyncAutoResetEvent.transition, active, incomplete, queue, done]

omit incomplete in
theorem call_wait_empty (queue : h.event.waits = []) :
    h.call .waitAsync = .ok ⟨{ h.event with
      waits := [h.event.tasks.length], tasks := h.event.tasks ++ [.pending] },
      h.returned ++ [h.event.tasks.length]⟩ := by
  simp [History.call, AsyncAutoResetEvent.waitAsync, AsyncAutoResetEvent.register,
    AsyncAutoResetEvent.takeOrEnqueue, AsyncAutoResetEvent.newSource,
    AsyncAutoResetEvent.enqueue, active, queue]

omit active incomplete in
theorem call_wait_queued {c : TaskId} {rest : List TaskId} (queue : h.event.waits = c :: rest) :
    h.call .waitAsync = .ok ⟨{ h.event with waits := rest }, h.returned ++ [c]⟩ := by
  simp [History.call, AsyncAutoResetEvent.waitAsync, AsyncAutoResetEvent.register,
    AsyncAutoResetEvent.takeOrEnqueue, queue]

end Calls

/-! ### The answers along a run -/

theorem Answered.returned_length {calls : List (Call T)} {h : History T}
    (ha : Answered calls h) : h.returned.length = waitCount calls := by
  simpa [Answered, History.states] using congrArg List.length ha

theorem Answered.task {calls : List (Call T)} {h : History T} (ha : Answered calls h)
    {k : ℕ} {t : TaskId} (ht : h.returned[k]? = some t) :
    h.event.tasks[t]? = some (.ofAnswer (values calls)[k]?) := by
  have hk : k < waitCount calls := by
    rw [← ha.returned_length]
    exact (List.getElem?_eq_some_iff.mp ht).1
  have hs := congrArg (fun l : List _ => l[k]?) ha
  simpa only [History.states, List.getElem?_map, ht, served_getElem?, if_pos hk,
    Option.map_some, Option.some.injEq] using hs

theorem Answered.known {calls : List (Call T)} {h : History T} (ha : Answered calls h)
    {t : TaskId} (ht : t ∈ h.returned) : t < h.event.tasks.length := by
  obtain ⟨k, hk⟩ := List.getElem?_of_mem ht
  exact (List.getElem?_eq_some_iff.mp (ha.task hk)).1

theorem Answered.states_newSource {calls : List (Call T)} {h : History T}
    (ha : Answered calls h) (s : TaskState T) :
    h.returned.map (fun t => (h.event.tasks ++ [s])[t]?) = h.states := by
  apply List.map_congr_left
  intro t ht
  exact List.getElem?_append_left (ha.known ht)

theorem not_answered_of_pending {made : List (Call T)} {v : T} {h : History T} {t : TaskId}
    (ht : h.returned[(values made).length]? = some t)
    (hp : h.event.tasks[t]? = some .pending) : ¬ Answered (made ++ [.set v]) h := by
  intro ha
  have hs := ha.task ht
  rw [hp] at hs
  simp [TaskState.ofAnswer] at hs

/-! ### One call keeps the queue balanced -/

theorem Balanced.set_stored_or_empty {made : List (Call T)} {h : History T}
    (hb : Balanced made h) (v : T) (level : waitCount made = (values made).length)
    (queue : h.event.waits = []) :
    ∃ h', h.call (.set v) = .ok h' ∧ Balanced (made ++ [.set v]) h' := by
  refine ⟨_, call_set_empty hb.active hb.incomplete v queue, ?_, ?_, hb.active, hb.incomplete⟩
  · have hs := hb.answered.states_newSource (.result v)
    simp only [Answered, History.states, values_append, values_set, waitCount_append,
      waitCount_set, Nat.add_zero] at hs ⊢
    rw [hs, served_item_early _ v (Nat.le_of_eq level)]
    exact hb.answered
  · exact .stored h.event.tasks.length v (by simp [level]) rfl (by simp) (by simp [level])

theorem Balanced.set_waiting {made : List (Call T)} {h : History T} (hb : Balanced made h)
    (v : T) {c : TaskId} {earlier : List TaskId}
    (behind : waitCount made = (values made).length + 1) (queue : h.event.waits = [c])
    (pending : h.event.tasks[c]? = some .pending) (tasks : h.returned = earlier ++ [c])
    (fresh : c ∉ earlier) :
    ∃ h', h.call (.set v) = .ok h' ∧ Balanced (made ++ [.set v]) h' := by
  refine ⟨_, call_set_pending hb.active hb.incomplete v queue pending, ?_, ?_, hb.active,
    hb.incomplete⟩
  · have hc : c < h.event.tasks.length := (List.getElem?_eq_some_iff.mp pending).1
    have hsame : earlier.map (fun t => (h.event.tasks.set c (.result v))[t]?) =
        earlier.map fun t => h.event.tasks[t]? := by
      refine List.map_congr_left fun t ht => List.getElem?_set_ne ?_
      rintro rfl
      exact fresh ht
    have hold := hb.answered
    simp only [Answered, History.states, tasks, behind, served_succ, List.map_append] at hold
    have hearlier := (List.append_inj' hold rfl).1
    simp only [Answered, History.states, values_append, values_set, waitCount_append,
      waitCount_set, Nat.add_zero, tasks, behind, served_item_next, List.map_append, hsame,
      hearlier]
    simp [TaskState.ofAnswer, hc]
  · exact .empty 0 (by simp [behind]) rfl

theorem Balanced.set {made : List (Call T)} {h : History T} (hb : Balanced made h) (v : T)
    (hle : (values made).length ≤ waitCount made)
    (hge : waitCount made ≤ (values made).length + 1) :
    ∃ h', h.call (.set v) = .ok h' ∧ Balanced (made ++ [.set v]) h' := by
  cases hb.shape with
  | stored c v ahead => omega
  | empty j level queue => exact hb.set_stored_or_empty v (by omega) queue
  | waiting j c earlier behind queue pending tasks fresh =>
    exact hb.set_waiting v (by omega) queue pending tasks fresh

theorem Balanced.wait {made : List (Call T)} {h : History T} (hb : Balanced made h) :
    ∃ h', h.call .waitAsync = .ok h' ∧ Balanced (made ++ [.waitAsync]) h' := by
  cases hb.shape with
  | stored c v ahead queue done last =>
    refine ⟨_, call_wait_queued queue, ?_, ?_, hb.active, hb.incomplete⟩
    · have ha := hb.answered
      simp only [Answered, History.states, values_append, values_wait, List.append_nil,
        waitCount_append, waitCount_wait, served_succ, List.map_append, List.map_cons,
        List.map_nil] at ha ⊢
      rw [ha, done, last, TaskState.ofAnswer]
    · exact .empty 0 (by simp [ahead]) rfl
  | empty j level queue =>
    refine ⟨_, call_wait_empty hb.active queue, ?_, ?_, hb.active, hb.incomplete⟩
    · have ha := hb.answered
      have hs := ha.states_newSource .pending
      have hopen : (values made)[waitCount made]? = none := by
        rw [List.getElem?_eq_none_iff]
        omega
      simp only [Answered, History.states, values_append, values_wait, List.append_nil,
        waitCount_append, waitCount_wait, served_succ, List.map_append, List.map_cons,
        List.map_nil] at ha hs ⊢
      rw [hs, ha, hopen]
      simp [TaskState.ofAnswer]
    · refine .waiting j h.event.tasks.length h.returned (by simp [level]) rfl (by simp) rfl ?_
      intro hm
      exact absurd (hb.answered.known hm) (Nat.lt_irrefl _)
  | waiting j c earlier behind queue pending tasks fresh =>
    refine ⟨_, call_wait_queued queue, ?_, ?_, hb.active, hb.incomplete⟩
    · have ha := hb.answered
      have hopen : (values made)[waitCount made]? = none := by
        rw [List.getElem?_eq_none_iff]
        omega
      simp only [Answered, History.states, values_append, values_wait, List.append_nil,
        waitCount_append, waitCount_wait, served_succ, List.map_append, List.map_cons,
        List.map_nil] at ha ⊢
      rw [ha, pending, hopen, TaskState.ofAnswer]
    · exact .empty (j + 1) (by simp [behind]; omega) rfl

theorem Balanced.set_out_of_turn {made : List (Call T)} {h h' : History T}
    (hb : Balanced made h) (v : T)
    (hout : ¬ ((values made).length ≤ waitCount made ∧
      waitCount made ≤ (values made).length + 1))
    (hc : h.call (.set v) = .ok h') : ¬ Answered (made ++ [.set v]) h' := by
  have hopen (hlt : (values made).length < waitCount made) : ∃ t,
      h.returned[(values made).length]? = some t ∧ h.event.tasks[t]? = some .pending := by
    rw [← hb.answered.returned_length] at hlt
    refine ⟨_, List.getElem?_eq_getElem hlt, ?_⟩
    rw [hb.answered.task (List.getElem?_eq_getElem hlt)]
    simp [TaskState.ofAnswer]
  cases hb.shape with
  | stored c w ahead queue done last =>
    rw [call_set_stored hb.active hb.incomplete v queue done] at hc
    cases hc
  | empty j level queue =>
    obtain ⟨t, ht, hp⟩ := hopen (by omega)
    rw [call_set_empty hb.active hb.incomplete v queue] at hc
    cases hc
    refine not_answered_of_pending ht ?_
    have hlt := (List.getElem?_eq_some_iff.mp hp).1
    simpa [List.getElem?_append_left hlt] using hp
  | waiting j c earlier behind queue pending tasks fresh =>
    obtain ⟨t, ht, hp⟩ := hopen (by omega)
    rw [call_set_pending hb.active hb.incomplete v queue pending] at hc
    cases hc
    refine not_answered_of_pending ht ?_
    -- the open wait is not the last one, whose source this `Set` completed
    have hlen := hb.answered.returned_length
    simp only [tasks, List.length_append, List.length_singleton] at hlen
    rw [tasks, List.getElem?_append_left (by omega)] at ht
    have hne : c ≠ t := by
      rintro rfl
      exact fresh (List.mem_of_getElem? ht)
    simpa [List.getElem?_set_ne hne] using hp

/-! ### Runs -/

theorem setsInTurn_concat {calls : List (Call T)} {c : Call T} :
    SetsInTurn (calls ++ [c]) ↔ SetsInTurn calls ∧ ∀ v, c = .set v →
      (values calls).length ≤ waitCount calls ∧ waitCount calls ≤ (values calls).length + 1 := by
  simp only [SetsInTurn, List.prefix_concat_iff]
  constructor
  · intro ht
    exact ⟨fun made v hm => ht made v (.inr hm), fun v hv => ht calls v (.inl (by rw [hv]))⟩
  · rintro ⟨ht, hc⟩ made v (hm | hm)
    · obtain ⟨rfl, hv⟩ := List.append_inj' hm rfl
      exact hc v (by simpa using hv.symm)
    · exact ht made v hm

theorem losslessHandoff_concat {calls : List (Call T)} {c : Call T} :
    LosslessHandoff (calls ++ [c]) ↔ LosslessHandoff calls ∧
      ∃ h, run History.call {} (calls ++ [c]) = .ok h ∧ Answered (calls ++ [c]) h := by
  simp only [LosslessHandoff, List.prefix_concat_iff]
  constructor
  · intro hl
    exact ⟨fun made hm => hl made (.inr hm), hl _ (.inl rfl)⟩
  · rintro ⟨hl, hc⟩ made (rfl | hm)
    · exact hc
    · exact hl made hm

theorem balanced_nil : Balanced ([] : List (Call T)) {} :=
  ⟨rfl, .empty 0 rfl rfl, rfl, rfl⟩

theorem run_balanced {calls : List (Call T)} (ht : SetsInTurn calls) :
    ∃ h, run History.call {} calls = .ok h ∧ Balanced calls h := by
  induction calls using List.reverseRecOn with
  | nil => exact ⟨_, rfl, balanced_nil⟩
  | append_singleton calls c ih =>
    obtain ⟨ht, hc⟩ := setsInTurn_concat.mp ht
    obtain ⟨h, hr, hb⟩ := ih ht
    simp only [run_concat_ok_iff]
    cases c with
    | set v =>
      obtain ⟨h', hcall, hb'⟩ := hb.set v (hc v rfl).1 (hc v rfl).2
      exact ⟨h', ⟨h, hr, hcall⟩, hb'⟩
    | waitAsync =>
      obtain ⟨h', hcall, hb'⟩ := hb.wait
      exact ⟨h', ⟨h, hr, hcall⟩, hb'⟩

/-- The event hands every value to its wait in exactly the runs in which each `Set`
is called with the waits level with the sets or one ahead. -/
theorem losslessHandoff_iff (calls : List (Call T)) :
    LosslessHandoff calls ↔ SetsInTurn calls := by
  induction calls using List.reverseRecOn with
  | nil =>
    refine ⟨fun _ made v hm => ?_, fun _ made hm => ?_⟩
    · simp at hm
    · obtain rfl := List.prefix_nil.mp hm
      exact ⟨_, rfl, balanced_nil.answered⟩
  | append_singleton calls c ih =>
    rw [losslessHandoff_concat, setsInTurn_concat, ih]
    apply and_congr_right
    intro ht
    obtain ⟨h, hr, hb⟩ := run_balanced ht
    constructor
    · rintro ⟨h', hr', ha⟩ v rfl
      obtain ⟨m, hm, hcall⟩ := run_concat_ok_iff.mp hr'
      obtain rfl := Except.ok.inj (hr.symm.trans hm)
      by_contra hout
      exact hb.set_out_of_turn v hout hcall ha
    · intro hc
      obtain ⟨h', hr', hb'⟩ := run_balanced (setsInTurn_concat.mpr ⟨ht, hc⟩)
      exact ⟨h', hr', hb'.answered⟩

/-- Two `Set`s in a row: the second one dequeues the stored result and throws. -/
theorem losslessHandoff_two_sets : ¬ LosslessHandoff [Call.set 1, Call.set 2] := by
  intro hl
  obtain ⟨h, hr, -⟩ := hl _ List.prefix_rfl
  simp [run, Except.bind, History.call, AsyncAutoResetEvent.set, AsyncAutoResetEvent.setUnsafe,
    AsyncAutoResetEvent.newSource, AsyncAutoResetEvent.enqueue,
    AsyncAutoResetEvent.transition] at hr

end DecodingProxy.Threading
