import DecodingProxy.Lib.Runs
import DecodingProxy.Streams.StreamDemultiplexer
import Mathlib.Tactic.Common

/-!
# Sessions of a pooled `StreamDemultiplexer`

The same object serves one session after another. `Close` puts the counters back and
leaves the four dictionaries as they are, so a session that ends with a subscriber
registered hands that subscriber, and its key, to the next one. Each subscriber below
carries the number of the session that registered it.
-/

namespace DecodingProxy.Streams
open DecodingProxy.Runtime DecodingProxy.Runs

variable {S : Type*}

structure Subscriber where
  session : ℕ
  id : ℕ
  deriving DecidableEq, Repr

abbrev Demux (S : Type*) := StreamDemultiplexer Subscriber Subscriber S

/-- The calls a session makes between `Initilize` and `Close`. -/
inductive Operation
  | registReader (id : ℕ)
  | registReaderAsync (id : ℕ) (operationId : ℤ)
  | registReaderReverse (key : ℤ)
  | registWriter (id : ℕ)
  | readAsync (answers : Answers Subscriber Subscriber)
      (arrivals : List (Except Fault (List UInt8)))
  | writeAsync (answers : Answers Subscriber Subscriber) (buffer : List UInt8)
      (written : Except Fault Unit)

inductive Action (S : Type*)
  | initilize (stream : S)
  | operation (op : Operation)
  | close

def Outcome.ignoreResult {α : Type*} : Outcome α → Outcome Unit
  | .done _ => .done ()
  | .pending => .pending
  | .failed fault => .failed fault

def Effect.ignoreResult {F G α : Type*} (e : Effect F G S α) : Effect F G S Unit :=
  { demux := e.demux, invoked := e.invoked, outcome := e.outcome.ignoreResult }

/-- The pooled object and the number of times it has been closed. -/
structure Pooled (S : Type*) where
  demux : Demux S := {}
  session : ℕ := 0

namespace Pooled

def subscriber (p : Pooled S) (id : ℕ) : Subscriber := ⟨p.session, id⟩

def perform (p : Pooled S) : Operation → Effect Subscriber Subscriber S Unit
  | .registReader id => (p.demux.registReader (p.subscriber id)).ignoreResult
  | .registReaderAsync id operationId =>
    (p.demux.registReaderAsync ⟨operationId, p.subscriber id⟩).ignoreResult
  | .registReaderReverse key => { demux := p.demux.registReaderReverse key, outcome := .done () }
  | .registWriter id => (p.demux.registWriter (p.subscriber id)).ignoreResult
  | .readAsync answers arrivals => (p.demux.readAsync answers arrivals).ignoreResult
  | .writeAsync answers buffer written => p.demux.writeAsync answers buffer written

/-- A call that throws leaves the session open; the run goes on after it. -/
def step (p : Pooled S) : Action S → Except Fault (Pooled S)
  | .initilize stream => .ok { p with demux := p.demux.initilize stream }
  | .operation op => .ok { p with demux := (p.perform op).demux }
  | .close => .ok ⟨p.demux.close, p.session + 1⟩

end Pooled

/-! ### What a session must not see of an earlier one -/

/-- The registrations that hold the key the next one of this kind is going to use. -/
def Pooled.holders (p : Pooled S) : Operation → List Subscriber
  | .registReader _ => (AList.lookup (increment p.demux.counter) p.demux.readers).toList
  | .registReaderAsync _ _ =>
    (AList.lookup (increment p.demux.counter) p.demux.readersAsync).toList.map (·.operation)
  | .registWriter _ => (AList.lookup (increment p.demux.counterWriter) p.demux.writers).toList
  | _ => []

/-- The subscribers invoked belong to the session, and so does a subscriber whose key
makes a registration fail. -/
def Pooled.Isolated (p : Pooled S) (op : Operation) : Prop :=
  (∀ s ∈ (p.perform op).invoked, s.session = p.session) ∧
    ∀ fault, (p.perform op).outcome = .failed fault → ∀ s ∈ p.holders op, s.session = p.session

/-- Every call of the run is isolated from the earlier sessions. -/
def SafeToReuse (actions : List (Action S)) : Prop :=
  ∀ before op, before ++ [.operation op] <+: actions →
    ∀ p, run Pooled.step {} before = .ok p → p.Isolated op

def StreamDemultiplexer.subscribers (d : Demux S) : List Subscriber :=
  d.readers.values ++ d.writers.values ++
    (d.readersAsync.values ++ d.writersAsync.values).map (·.operation)

/-- `Close` is called with nobody registered. -/
def ClosesEmpty (p : Pooled S) : Action S → Prop
  | .close => p.demux.subscribers = []
  | _ => True

/-! ### What one call does to the tables -/

theorem registReader_cases (value : Subscriber) (d : Demux S) :
    (increment d.counter ∈ d.readers ∧ d.registReader value =
        { demux := { d with counter := increment d.counter }
          outcome := .failed (.raised .argument) }) ∨
      ∃ readers, d.readers.add (increment d.counter) value = .ok readers ∧
        d.registReader value = { demux := { d with counter := increment d.counter, readers }
                                 outcome := .done (increment d.counter) } := by
  unfold StreamDemultiplexer.registReader
  rcases Dictionary.add_cases d.readers (increment d.counter) value with ⟨hk, ha⟩ | ⟨d', -, ha⟩
  · exact .inl ⟨hk, by simp [ha]⟩
  · exact .inr ⟨d', ha, by simp [ha]⟩

theorem registReaderAsync_cases (value : AsyncOperation Subscriber) (d : Demux S) :
    (increment d.counter ∈ d.readersAsync ∧ d.registReaderAsync value =
        { demux := { d with counter := increment d.counter }
          outcome := .failed (.raised .argument) }) ∨
      ∃ readersAsync, d.readersAsync.add (increment d.counter) value = .ok readersAsync ∧
        d.registReaderAsync value =
          { demux := { d with counter := increment d.counter, readersAsync }
            outcome := .done (increment d.counter) } := by
  unfold StreamDemultiplexer.registReaderAsync
  rcases Dictionary.add_cases d.readersAsync (increment d.counter) value with
    ⟨hk, ha⟩ | ⟨d', -, ha⟩
  · exact .inl ⟨hk, by simp [ha]⟩
  · exact .inr ⟨d', ha, by simp [ha]⟩

theorem registWriter_cases (value : Subscriber) (d : Demux S) :
    (increment d.counterWriter ∈ d.writers ∧ d.registWriter value =
        { demux := { d with counterWriter := increment d.counterWriter }
          outcome := .failed (.raised .argument) }) ∨
      ∃ writers, d.writers.add (increment d.counterWriter) value = .ok writers ∧
        d.registWriter value =
          { demux := { d with counterWriter := increment d.counterWriter, writers }
            outcome := .done (increment d.counterWriter) } := by
  unfold StreamDemultiplexer.registWriter
  rcases Dictionary.add_cases d.writers (increment d.counterWriter) value with
    ⟨hk, ha⟩ | ⟨d', -, ha⟩
  · exact .inl ⟨hk, by simp [ha]⟩
  · exact .inr ⟨d', ha, by simp [ha]⟩

theorem registReader_subscribers {d : Demux S} {value s : Subscriber}
    (h : s ∈ (d.registReader value).demux.subscribers) : s = value ∨ s ∈ d.subscribers := by
  rcases registReader_cases value d with ⟨-, he⟩ | ⟨readers, ha, he⟩
  · rw [he] at h
    exact .inr h
  · rw [he] at h
    simp only [StreamDemultiplexer.subscribers, List.mem_append, Dictionary.mem_values_add ha]
      at h ⊢
    tauto

theorem registReaderAsync_subscribers {d : Demux S} {value : AsyncOperation Subscriber}
    {s : Subscriber} (h : s ∈ (d.registReaderAsync value).demux.subscribers) :
    s = value.operation ∨ s ∈ d.subscribers := by
  rcases registReaderAsync_cases value d with ⟨-, he⟩ | ⟨readersAsync, ha, he⟩
  · rw [he] at h
    exact .inr h
  · rw [he] at h
    simp only [StreamDemultiplexer.subscribers, List.mem_append, List.map_append, List.mem_map,
      Dictionary.mem_values_add ha] at h ⊢
    rcases h with hs | ⟨o, rfl | ho, rfl⟩ | hw
    · exact .inr (.inl hs)
    · exact .inl rfl
    · exact .inr (.inr (.inl ⟨o, ho, rfl⟩))
    · exact .inr (.inr (.inr hw))

theorem registWriter_subscribers {d : Demux S} {value s : Subscriber}
    (h : s ∈ (d.registWriter value).demux.subscribers) : s = value ∨ s ∈ d.subscribers := by
  rcases registWriter_cases value d with ⟨-, he⟩ | ⟨writers, ha, he⟩
  · rw [he] at h
    exact .inr h
  · rw [he] at h
    simp only [StreamDemultiplexer.subscribers, List.mem_append, Dictionary.mem_values_add ha]
      at h ⊢
    tauto

theorem registReaderReverse_subscribers {d : Demux S} {key : ℤ} {s : Subscriber}
    (h : s ∈ (d.registReaderReverse key).subscribers) : s ∈ d.subscribers := by
  simp only [StreamDemultiplexer.subscribers, StreamDemultiplexer.registReaderReverse,
    List.mem_append] at h ⊢
  exact h.imp_left fun h => h.imp_left Dictionary.values_remove

theorem notifyReadersAsync_subscribers {answers : Answers Subscriber Subscriber}
    {slice : List UInt8} {d : Demux S} {s : Subscriber}
    (h : s ∈ (d.notifyReadersAsync answers slice).demux.subscribers) : s ∈ d.subscribers := by
  simp only [StreamDemultiplexer.subscribers, StreamDemultiplexer.notifyReadersAsync,
    List.mem_append, List.mem_map] at h ⊢
  rcases h with (hr | hw) | ⟨o, ho | hw, rfl⟩
  · exact .inl (.inl (notifySubscribers_values hr))
  · exact .inl (.inr hw)
  · exact .inr ⟨o, .inl (notifySubscribersAsync_values ho), rfl⟩
  · exact .inr ⟨o, .inr hw, rfl⟩

theorem notifyWritersAsync_subscribers {answers : Answers Subscriber Subscriber}
    {slice : List UInt8} {d : Demux S} {s : Subscriber}
    (h : s ∈ (d.notifyWritersAsync answers slice).demux.subscribers) : s ∈ d.subscribers := by
  simp only [StreamDemultiplexer.subscribers, StreamDemultiplexer.notifyWritersAsync,
    List.mem_append, List.mem_map] at h ⊢
  rcases h with (hr | hw) | ⟨o, ho | hw, rfl⟩
  · exact .inl (.inl hr)
  · exact .inl (.inr (notifySubscribers_values hw))
  · exact .inr ⟨o, .inl ho, rfl⟩
  · exact .inr ⟨o, .inr (notifySubscribersAsync_values hw), rfl⟩

theorem repeatRead_cases (answers : Answers Subscriber Subscriber) (d : Demux S)
    (arrivals : List (Except Fault (List UInt8))) :
    ((d.repeatRead answers arrivals).demux = d ∧ (d.repeatRead answers arrivals).invoked = []) ∨
      ∃ slice, slice ≠ [] ∧
        (d.repeatRead answers arrivals).demux = (d.notifyReadersAsync answers slice).demux ∧
        (d.repeatRead answers arrivals).invoked = (d.notifyReadersAsync answers slice).invoked := by
  induction arrivals with
  | nil => exact .inl ⟨rfl, rfl⟩
  | cons arrival arrivals ih =>
    match arrival with
    | .error fault => exact .inl ⟨rfl, rfl⟩
    | .ok [] => exact ih
    | .ok (b :: bs) => exact .inr ⟨b :: bs, by simp, rfl, rfl⟩

theorem readAsync_subscribers {answers : Answers Subscriber Subscriber}
    {arrivals : List (Except Fault (List UInt8))} {d : Demux S} {s : Subscriber}
    (h : s ∈ (d.readAsync answers arrivals).demux.subscribers) : s ∈ d.subscribers := by
  unfold StreamDemultiplexer.readAsync at h
  split at h
  · exact h
  · rcases repeatRead_cases answers d arrivals with ⟨hd, -⟩ | ⟨slice, -, hd, -⟩
    · rwa [hd] at h
    · rw [hd] at h
      exact notifyReadersAsync_subscribers h

theorem readAsync_invoked {answers : Answers Subscriber Subscriber}
    {arrivals : List (Except Fault (List UInt8))} {d : Demux S} {s : Subscriber}
    (h : s ∈ (d.readAsync answers arrivals).invoked) : s ∈ d.readers.values := by
  unfold StreamDemultiplexer.readAsync at h
  split at h
  · simp at h
  · rcases repeatRead_cases answers d arrivals with ⟨-, hi⟩ | ⟨slice, -, -, hi⟩
    · rw [hi] at h
      simp at h
    · rw [hi] at h
      exact notifySubscribers_invoked h

theorem writeAsync_subscribers {answers : Answers Subscriber Subscriber} {buffer : List UInt8}
    {written : Except Fault Unit} {d : Demux S} {s : Subscriber}
    (h : s ∈ (d.writeAsync answers buffer written).demux.subscribers) : s ∈ d.subscribers := by
  unfold StreamDemultiplexer.writeAsync at h
  split at h
  · exact h
  · exact h
  · exact notifyWritersAsync_subscribers h

theorem writeAsync_invoked {answers : Answers Subscriber Subscriber} {buffer : List UInt8}
    {written : Except Fault Unit} {d : Demux S} {s : Subscriber}
    (h : s ∈ (d.writeAsync answers buffer written).invoked) : s ∈ d.writers.values := by
  unfold StreamDemultiplexer.writeAsync at h
  split at h
  · simp at h
  · simp at h
  · exact notifySubscribers_invoked h

theorem perform_subscribers {p : Pooled S} {op : Operation} {s : Subscriber}
    (h : s ∈ (p.perform op).demux.subscribers) : s ∈ p.demux.subscribers ∨ s.session = p.session := by
  cases op with
  | registReader id =>
    rcases registReader_subscribers h with rfl | hs
    · exact .inr rfl
    · exact .inl hs
  | registReaderAsync id operationId =>
    rcases registReaderAsync_subscribers h with rfl | hs
    · exact .inr rfl
    · exact .inl hs
  | registReaderReverse key => exact .inl (registReaderReverse_subscribers h)
  | registWriter id =>
    rcases registWriter_subscribers h with rfl | hs
    · exact .inr rfl
    · exact .inl hs
  | readAsync answers arrivals => exact .inl (readAsync_subscribers h)
  | writeAsync answers buffer written => exact .inl (writeAsync_subscribers h)

theorem perform_invoked {p : Pooled S} {op : Operation} {s : Subscriber}
    (h : s ∈ (p.perform op).invoked) : s ∈ p.demux.subscribers := by
  simp only [StreamDemultiplexer.subscribers, List.mem_append]
  cases op with
  | readAsync answers arrivals => exact .inl (.inl (readAsync_invoked h))
  | writeAsync answers buffer written => exact .inl (.inr (writeAsync_invoked h))
  | registReader id =>
    rcases registReader_cases (p.subscriber id) p.demux with ⟨-, he⟩ | ⟨_, -, he⟩ <;>
      simp [Pooled.perform, Effect.ignoreResult, he] at h
  | registReaderAsync id operationId =>
    rcases registReaderAsync_cases ⟨operationId, p.subscriber id⟩ p.demux with
      ⟨-, he⟩ | ⟨_, -, he⟩ <;> simp [Pooled.perform, Effect.ignoreResult, he] at h
  | registWriter id =>
    rcases registWriter_cases (p.subscriber id) p.demux with ⟨-, he⟩ | ⟨_, -, he⟩ <;>
      simp [Pooled.perform, Effect.ignoreResult, he] at h
  | registReaderReverse key => simp [Pooled.perform] at h

theorem holders_subscribers {p : Pooled S} {op : Operation} {s : Subscriber}
    (h : s ∈ p.holders op) : s ∈ p.demux.subscribers := by
  simp only [StreamDemultiplexer.subscribers, List.map_append, List.mem_append, List.mem_map]
  cases op with
  | registReader id =>
    exact .inl (.inl (Dictionary.lookup_mem_values (Option.mem_toList.mp h)))
  | registReaderAsync id operationId =>
    obtain ⟨o, ho, rfl⟩ := List.mem_map.mp h
    exact .inr (.inl ⟨o, Dictionary.lookup_mem_values (Option.mem_toList.mp ho), rfl⟩)
  | registWriter id =>
    exact .inl (.inr (Dictionary.lookup_mem_values (Option.mem_toList.mp h)))
  | registReaderReverse key => simp [Pooled.holders] at h
  | readAsync answers arrivals => simp [Pooled.holders] at h
  | writeAsync answers buffer written => simp [Pooled.holders] at h

/-! ### Runs -/

/-- Everybody registered was registered in the current session. -/
def Pooled.Current (p : Pooled S) : Prop :=
  ∀ s ∈ p.demux.subscribers, s.session = p.session

theorem Pooled.Current.isolated {p : Pooled S} (h : p.Current) (op : Operation) :
    p.Isolated op :=
  ⟨fun s hs => h s (perform_invoked hs), fun _ _ s hs => h s (holders_subscribers hs)⟩

theorem step_current {p q : Pooled S} {a : Action S} (h : p.Current) (hc : ClosesEmpty p a)
    (hs : p.step a = .ok q) : q.Current := by
  cases a with
  | initilize stream =>
    cases hs
    exact h
  | operation op =>
    cases hs
    intro s hs
    rcases perform_subscribers hs with hold | hnew
    · exact h s hold
    · exact hnew
  | close =>
    cases hs
    intro s hs
    have hnone : s ∈ p.demux.subscribers := hs
    rw [hc] at hnone
    simp at hnone

theorem current_new : (Pooled.Current ({} : Pooled S)) := by
  intro s hs
  simp [StreamDemultiplexer.subscribers] at hs

theorem safeToReuse_of_closesEmpty {actions : List (Action S)}
    (h : Along Pooled.step ClosesEmpty {} actions) : SafeToReuse actions := by
  intro before op hp p hr
  have hb : before <+: actions := (List.prefix_append before _).trans hp
  exact (Along.run_invariant (fun _ _ _ => step_current) current_new (h.of_prefix hb) hr).isolated op

/-! ### What a leftover does to the next session -/

/-- What holds of the object in every run, also of one that leaks. -/
structure Pooled.Aged (p : Pooled S) : Prop where
  sessions : ∀ s ∈ p.demux.subscribers, s.session ≤ p.session
  noAsyncWriters : p.demux.writersAsync.values = []
  keys : ∀ key ∈ p.demux.readersAsync, int32 key = key

theorem removeFinished_mem {F G : Type*} {answers : Answers F G}
    {operations : List (AsyncOperation G)} {list : Dictionary ℤ (AsyncOperation G)} {key : ℤ}
    (h : key ∈ (removeFinished answers operations list).1) : key ∈ list := by
  induction operations generalizing list with
  | nil => exact h
  | cons asyncOperation operations ih =>
    unfold removeFinished at h
    split at h
    · exact h
    · exact h
    · exact (AList.mem_erase.mp (ih h)).2
    · exact ih h

theorem notifySubscribersAsync_mem {F G : Type*} {answers : Answers F G}
    {list : Dictionary ℤ (AsyncOperation G)} {key : ℤ}
    (h : key ∈ (notifySubscribersAsync answers list).1) : key ∈ list := by
  unfold notifySubscribersAsync at h
  simp only at h
  split at h
  · exact h
  · exact h
  · exact removeFinished_mem h

theorem readAsync_tables (answers : Answers Subscriber Subscriber)
    (arrivals : List (Except Fault (List UInt8))) (d : Demux S) :
    (d.readAsync answers arrivals).demux.writersAsync = d.writersAsync ∧
      ∀ key ∈ (d.readAsync answers arrivals).demux.readersAsync, key ∈ d.readersAsync := by
  unfold StreamDemultiplexer.readAsync
  split
  · exact ⟨rfl, fun _ h => h⟩
  · rcases repeatRead_cases answers d arrivals with ⟨hd, -⟩ | ⟨slice, -, hd, -⟩
    · rw [hd]
      exact ⟨rfl, fun _ h => h⟩
    · rw [hd]
      exact ⟨rfl, fun _ h => notifySubscribersAsync_mem h⟩

theorem writeAsync_tables (answers : Answers Subscriber Subscriber) (buffer : List UInt8)
    (written : Except Fault Unit) (d : Demux S) :
    (∀ o ∈ (d.writeAsync answers buffer written).demux.writersAsync.values,
        o ∈ d.writersAsync.values) ∧
      (d.writeAsync answers buffer written).demux.readersAsync = d.readersAsync := by
  unfold StreamDemultiplexer.writeAsync
  split
  · exact ⟨fun _ h => h, rfl⟩
  · exact ⟨fun _ h => h, rfl⟩
  · exact ⟨fun _ h => notifySubscribersAsync_values h, rfl⟩

theorem registReader_tables (value : Subscriber) (d : Demux S) :
    (d.registReader value).demux.writersAsync = d.writersAsync ∧
      (d.registReader value).demux.readersAsync = d.readersAsync := by
  rcases registReader_cases value d with ⟨-, he⟩ | ⟨_, -, he⟩ <;> exact he ▸ ⟨rfl, rfl⟩

theorem registWriter_tables (value : Subscriber) (d : Demux S) :
    (d.registWriter value).demux.writersAsync = d.writersAsync ∧
      (d.registWriter value).demux.readersAsync = d.readersAsync := by
  rcases registWriter_cases value d with ⟨-, he⟩ | ⟨_, -, he⟩ <;> exact he ▸ ⟨rfl, rfl⟩

theorem registReaderAsync_tables (value : AsyncOperation Subscriber) (d : Demux S) :
    (d.registReaderAsync value).demux.writersAsync = d.writersAsync ∧
      ∀ key ∈ (d.registReaderAsync value).demux.readersAsync,
        key ∈ d.readersAsync ∨ key = increment d.counter := by
  rcases registReaderAsync_cases value d with ⟨-, he⟩ | ⟨_, ha, he⟩
  · rw [he]
    exact ⟨rfl, fun _ h => .inl h⟩
  · rw [he]
    exact ⟨rfl, fun _ h => ((Dictionary.mem_add ha).mp h).symm⟩

theorem Pooled.Aged.perform {p : Pooled S} (h : p.Aged) (op : Operation) :
    Aged { p with demux := (p.perform op).demux } := by
  have hs : ∀ s ∈ (p.perform op).demux.subscribers, s.session ≤ p.session := fun s hs =>
    (perform_subscribers hs).elim (h.sessions s) Nat.le_of_eq
  cases op with
  | registReader id =>
    obtain ⟨hw, hr⟩ := registReader_tables (p.subscriber id) p.demux
    exact ⟨hs, hw ▸ h.noAsyncWriters, fun key hk => h.keys key (hr ▸ hk)⟩
  | registReaderAsync id operationId =>
    obtain ⟨hw, hr⟩ := registReaderAsync_tables ⟨operationId, p.subscriber id⟩ p.demux
    refine ⟨hs, hw ▸ h.noAsyncWriters, fun key hk => ?_⟩
    rcases hr key hk with hk | rfl
    · exact h.keys key hk
    · exact int32_int32 _
  | registReaderReverse key => exact ⟨hs, h.noAsyncWriters, h.keys⟩
  | registWriter id =>
    obtain ⟨hw, hr⟩ := registWriter_tables (p.subscriber id) p.demux
    exact ⟨hs, hw ▸ h.noAsyncWriters, fun key hk => h.keys key (hr ▸ hk)⟩
  | readAsync answers arrivals =>
    obtain ⟨hw, hr⟩ := readAsync_tables answers arrivals p.demux
    exact ⟨hs, hw ▸ h.noAsyncWriters, fun key hk => h.keys key (hr key hk)⟩
  | writeAsync answers buffer written =>
    obtain ⟨hw, hr⟩ := writeAsync_tables answers buffer written p.demux
    refine ⟨hs, List.eq_nil_iff_forall_not_mem.mpr fun o ho => ?_, fun key hk =>
      h.keys key (hr ▸ hk)⟩
    have := hw o ho
    rw [h.noAsyncWriters] at this
    simp at this

theorem step_aged {p q : Pooled S} {a : Action S} (h : p.Aged) (hs : p.step a = .ok q) :
    q.Aged := by
  cases a with
  | initilize stream =>
    cases hs
    exact ⟨h.sessions, h.noAsyncWriters, h.keys⟩
  | operation op =>
    cases hs
    exact h.perform op
  | close =>
    cases hs
    exact ⟨fun s hs => (h.sessions s hs).trans (Nat.le_succ _), h.noAsyncWriters, h.keys⟩

theorem aged_new : (Pooled.Aged ({} : Pooled S)) where
  sessions s hs := by simp [StreamDemultiplexer.subscribers] at hs
  noAsyncWriters := rfl
  keys key hk := absurd hk (AList.notMem_empty key)

theorem run_aged {before : List (Action S)} {p : Pooled S}
    (hr : run Pooled.step {} before = .ok p) : p.Aged :=
  run_history (I := fun _ p => p.Aged) aged_new (fun _ _ _ _ h hs => step_aged h hs) hr

/-- Everybody answers, and everybody unsubscribes. -/
def unsubscribing : Answers Subscriber Subscriber where
  invoke _ _ := .ok true
  operation _ := none

theorem notifySubscribers_all (buffer : List UInt8) (list : Dictionary ℤ Subscriber) :
    (notifySubscribers unsubscribing buffer list).2.1 = list.values := by
  have hi : (invokeAll (unsubscribing.invoke · buffer) list.items).1 = list.items.map Prod.snd :=
    invokeAll_total fun _ _ => ⟨true, rfl⟩
  unfold notifySubscribers
  split
  · rename_i heq
    exact (congrArg Prod.fst heq).symm.trans hi
  · rename_i heq
    exact (congrArg Prod.fst heq).symm.trans hi

section Leftover
variable {p : Pooled S} {s : Subscriber} (foreign : s.session < p.session)
include foreign

theorem leftover_reader (stream : S) (hs : s ∈ p.demux.readers.values) :
    ¬ Pooled.Isolated { p with demux := p.demux.initilize stream }
      (.readAsync unsubscribing [.ok [0]]) := by
  rintro ⟨hi, -⟩
  have hin : s ∈ (notifySubscribers unsubscribing [0] p.demux.readers).2.1 := by
    rw [notifySubscribers_all]
    exact hs
  exact absurd (hi s hin) (Nat.ne_of_lt foreign)

theorem leftover_writer (stream : S) (hs : s ∈ p.demux.writers.values) :
    ¬ Pooled.Isolated { p with demux := p.demux.initilize stream }
      (.writeAsync unsubscribing [0] (.ok ())) := by
  rintro ⟨hi, -⟩
  have hin : s ∈ (notifySubscribers unsubscribing [0] p.demux.writers).2.1 := by
    rw [notifySubscribers_all]
    exact hs
  exact absurd (hi s hin) (Nat.ne_of_lt foreign)

theorem leftover_key {o : AsyncOperation Subscriber} (ho : o.operation = s)
    (hk : AList.lookup (increment p.demux.counter) p.demux.readersAsync = some o) :
    ¬ p.Isolated (.registReaderAsync 0 0) := by
  rintro ⟨-, hf⟩
  have hmem : increment p.demux.counter ∈ p.demux.readersAsync :=
    Dictionary.mem_iff_lookup.mpr ⟨o, hk⟩
  rcases registReaderAsync_cases ⟨0, p.subscriber 0⟩ p.demux with ⟨-, he⟩ | ⟨_, ha, -⟩
  · refine absurd (hf (.raised .argument) ?_ s ?_) (Nat.ne_of_lt foreign)
    · simp [Pooled.perform, Effect.ignoreResult, Outcome.ignoreResult, he]
    · simp [Pooled.holders, hk, ho]
  · rcases Dictionary.add_cases p.demux.readersAsync (increment p.demux.counter)
      ⟨0, p.subscriber 0⟩ with ⟨-, he⟩ | ⟨_, hn, -⟩
    · rw [he] at ha
      cases ha
    · exact hn hmem

end Leftover

theorem run_registReaderAsync (p : Pooled S) (key : ℤ) (o : AsyncOperation Subscriber)
    (hk : AList.lookup key p.demux.readersAsync = some o) (h0 : p.demux.counter = 0) (n : ℕ) :
    ∃ q, run Pooled.step p (.replicate n (.operation (.registReaderAsync 0 0))) = .ok q ∧
      q.session = p.session ∧ q.demux.counter = int32 n ∧
      AList.lookup key q.demux.readersAsync = some o := by
  induction n with
  | zero => exact ⟨p, rfl, rfl, h0, hk⟩
  | succ n ih =>
    obtain ⟨q, hr, hs, hc, hl⟩ := ih
    have hcount : increment q.demux.counter = int32 (n + 1 : ℕ) := by
      rw [hc, increment, int32_succ]
      norm_cast
    rw [List.replicate_succ']
    simp only [run_concat_ok_iff]
    refine ⟨_, ⟨q, hr, rfl⟩, hs, ?_⟩
    simp only [Pooled.perform, Effect.ignoreResult]
    rcases registReaderAsync_cases ⟨0, q.subscriber 0⟩ q.demux with ⟨-, he⟩ | ⟨_, ha, he⟩
    · rw [he]
      exact ⟨hcount, hl⟩
    · rw [he]
      exact ⟨hcount, Dictionary.lookup_add ha hl⟩

/-- Whoever is left at `Close` can be met before the next `Close`. -/
theorem exists_leak [Inhabited S] {p : Pooled S} (ha : p.Aged) {s : Subscriber}
    (hs : s ∈ p.demux.subscribers) (foreign : s.session < p.session)
    (h0 : p.demux.counter = 0) :
    ∃ more op q, (∀ a ∈ more, a ≠ .close) ∧ run Pooled.step p more = .ok q ∧ ¬ q.Isolated op := by
  simp only [StreamDemultiplexer.subscribers, ha.noAsyncWriters, List.append_nil,
    List.mem_append, List.mem_map] at hs
  rcases hs with (hr | hw) | ⟨o, ho, rfl⟩
  · exact ⟨[.initilize default], _, _, by simp, rfl, leftover_reader foreign default hr⟩
  · exact ⟨[.initilize default], _, _, by simp, rfl, leftover_writer foreign default hw⟩
  · obtain ⟨key, hk⟩ := Dictionary.mem_values.mp ho
    have hlook : AList.lookup key p.demux.readersAsync = some o := AList.mem_lookup_iff.mpr hk
    obtain ⟨n, hn⟩ := exists_int32_succ (ha.keys key (Dictionary.mem_iff_lookup.mpr ⟨o, hlook⟩))
    obtain ⟨q, hr, hsession, hcount, hl⟩ := run_registReaderAsync p key o hlook h0 n
    refine ⟨_, .registReaderAsync 0 0, q, ?_, hr, leftover_key (by rwa [hsession]) rfl ?_⟩
    · intro a hmem
      rw [List.eq_of_mem_replicate hmem]
      simp
    · rw [hcount, increment, int32_succ, hn]
      exact hl

/-! ### The exact condition -/

/-- The run is safe, and stays safe however one of its sessions goes on. -/
def SafeInEverySession (actions : List (Action S)) : Prop :=
  ∀ before more, before <+: actions → (∀ a ∈ more, a ≠ .close) → SafeToReuse (before ++ more)

theorem safeInEverySession_iff [Inhabited S] (actions : List (Action S)) :
    SafeInEverySession actions ↔ Along Pooled.step ClosesEmpty {} actions := by
  constructor
  · intro h
    apply along_iff.mpr
    intro before a hp t hr
    cases a with
    | initilize stream => trivial
    | operation op => trivial
    | close =>
      apply List.eq_nil_iff_forall_not_mem.mpr
      intro s hs
      have hclosed : run Pooled.step {} (before ++ [.close]) = .ok ⟨t.demux.close, t.session + 1⟩ :=
        run_concat_ok_iff.mpr ⟨t, hr, rfl⟩
      obtain ⟨more, op, q, hmore, hq, hleak⟩ := exists_leak (run_aged hclosed) (s := s) hs
        (Nat.lt_succ_of_le ((run_aged hr).sessions s hs)) rfl
      have hsafe := h (before ++ [.close]) (more ++ [.operation op]) hp
        (by simpa [or_imp, forall_and] using hmore)
      rw [← List.append_assoc] at hsafe
      exact hleak (hsafe _ op List.prefix_rfl q (run_append_ok_iff.mpr ⟨_, hclosed, hq⟩))
  · intro h before more hp hmore
    refine safeToReuse_of_closesEmpty (along_append_iff.mpr ⟨h.of_prefix hp, fun t _ => ?_⟩)
    apply along_of_forall
    intro a ha u
    cases a with
    | initilize stream => trivial
    | operation op => trivial
    | close => exact absurd rfl (hmore _ ha)

/-- A reader that stays registered: the next session's first `RegistReader` finds its
key taken. -/
theorem not_safeToReuse_leftover : ¬ SafeToReuse [.initilize (), .operation (.registReader 0),
    .close, .initilize (), .operation (.registReader 1)] := by
  intro h
  obtain ⟨-, hf⟩ := h [.initilize (), .operation (.registReader 0), .close, .initilize ()]
    (.registReader 1) List.prefix_rfl _ rfl
  exact absurd (hf (.raised .argument) rfl ⟨0, 0⟩ (by decide)) (by decide)

end DecodingProxy.Streams
