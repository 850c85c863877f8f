import DecodingProxy.Runtime.Dictionary
import DecodingProxy.Threading.AsyncCounter

/-!
# `StreamDemultiplexer`

Every slice that is read or written goes to the subscribers of that side. A
synchronous subscriber is a delegate that is invoked with the slice and leaves by
returning `true`; an asynchronous one is a task that is only awaited. The delegates,
the tasks and the inner stream are code outside the class: what they answer is part
of the call.
-/

namespace DecodingProxy.Streams
open DecodingProxy.Runtime DecodingProxy.Threading

variable {F G S : Type*}

/-- `AsyncOperation<T>`. -/
structure AsyncOperation (G : Type*) where
  id : ℤ
  operation : G
  deriving DecidableEq, Repr

/-- How a call ends: an `await` that nothing finishes leaves it pending. -/
inductive Outcome (α : Type*)
  | done (value : α)
  | pending
  | failed (fault : Fault)
  deriving DecidableEq, Repr

/-- What the delegates return for a slice, how the tasks stand, and the counter the
pool hands to `WhenResults`. -/
structure Answers (F G : Type*) where
  invoke : F → List UInt8 → Except Fault Bool
  operation : G → Option (Except Fault Bool)
  counter : AsyncCounter := {}

structure StreamDemultiplexer (F G S : Type*) where
  readers : Dictionary ℤ F := ∅
  writers : Dictionary ℤ F := ∅
  readersAsync : Dictionary ℤ (AsyncOperation G) := ∅
  writersAsync : Dictionary ℤ (AsyncOperation G) := ∅
  innerStream : Option S := none
  counter : ℤ := 0
  counterWriter : ℤ := 0

/-- The object after a call, the delegates the call invoked, and how it ended. -/
structure Effect (F G S α : Type*) where
  demux : StreamDemultiplexer F G S
  invoked : List F := []
  outcome : Outcome α

/-- `Interlocked.Increment`. -/
def increment (counter : ℤ) : ℤ := int32 (counter + 1)

/-- Invokes every entry up to the first that throws; the keys to delete. -/
def invokeAll (invoke : F → Except Fault Bool) : List (ℤ × F) → List F × Except Fault (List ℤ)
  | [] => ([], .ok [])
  | (key, value) :: items =>
    match invoke value with
    | .error fault => ([value], .error fault)
    | .ok isUnsubscribe =>
      let (invoked, keysToDelete) := invokeAll invoke items
      (value :: invoked,
        keysToDelete.map fun keys => if isUnsubscribe then key :: keys else keys)

def notifySubscribers (answers : Answers F G) (buffer : List UInt8) (list : Dictionary ℤ F) :
    Dictionary ℤ F × List F × Except Fault Unit :=
  match invokeAll (answers.invoke · buffer) list.items with
  | (invoked, .ok keysToDelete) => (list.removeAll keysToDelete, invoked, .ok ())
  | (invoked, .error fault) => (list, invoked, .error fault)

/-- The loop over the joined results. `Result` of a task that has not completed blocks. -/
def removeFinished (answers : Answers F G) :
    List (AsyncOperation G) → Dictionary ℤ (AsyncOperation G) →
      Dictionary ℤ (AsyncOperation G) × Outcome Unit
  | [], list => (list, .done ())
  | asyncOperation :: operations, list =>
    match answers.operation asyncOperation.operation with
    | none => (list, .pending)
    | some (.error fault) => (list, .failed fault)
    | some (.ok true) => removeFinished answers operations (list.remove asyncOperation.id)
    | some (.ok false) => removeFinished answers operations list

def notifySubscribersAsync (answers : Answers F G) (list : Dictionary ℤ (AsyncOperation G)) :
    Dictionary ℤ (AsyncOperation G) × Outcome Unit :=
  let operations := list.values
  let completed := operations.countP fun o => (answers.operation o.operation).isSome
  match whenResults answers.counter operations.length completed with
  | .error fault => (list, .failed fault)
  | .ok false => (list, .pending)
  | .ok true => removeFinished answers operations list

namespace StreamDemultiplexer

def initilize (stream : S) (d : StreamDemultiplexer F G S) : StreamDemultiplexer F G S :=
  { d with innerStream := some stream }

def registReaderAsync (value : AsyncOperation G) (d : StreamDemultiplexer F G S) :
    Effect F G S ℤ :=
  let key := increment d.counter
  let d := { d with counter := key }
  match d.readersAsync.add key value with
  | .ok readersAsync => { demux := { d with readersAsync }, outcome := .done key }
  | .error fault => { demux := d, outcome := .failed fault }

def registReader (value : F) (d : StreamDemultiplexer F G S) : Effect F G S ℤ :=
  let key := increment d.counter
  let d := { d with counter := key }
  match d.readers.add key value with
  | .ok readers => { demux := { d with readers }, outcome := .done key }
  | .error fault => { demux := d, outcome := .failed fault }

def registReaderReverse (key : ℤ) (d : StreamDemultiplexer F G S) : StreamDemultiplexer F G S :=
  { d with readers := d.readers.remove key }

def registWriter (action : F) (d : StreamDemultiplexer F G S) : Effect F G S ℤ :=
  let key := increment d.counterWriter
  let d := { d with counterWriter := key }
  match d.writers.add key action with
  | .ok writers => { demux := { d with writers }, outcome := .done key }
  | .error fault => { demux := d, outcome := .failed fault }

def notifyReadersAsync (answers : Answers F G) (slice : List UInt8)
    (d : StreamDemultiplexer F G S) : Effect F G S Unit :=
  let (readersAsync, t1) := notifySubscribersAsync answers d.readersAsync
  let (readers, invoked, called) := notifySubscribers answers slice d.readers
  { demux := { d with readersAsync, readers }
    invoked
    outcome := match called with
      | .ok () => t1
      | .error fault => .failed fault }

def notifyWritersAsync (answers : Answers F G) (slice : List UInt8)
    (d : StreamDemultiplexer F G S) : Effect F G S Unit :=
  let (writersAsync, t1) := notifySubscribersAsync answers d.writersAsync
  let (writers, invoked, called) := notifySubscribers answers slice d.writers
  { demux := { d with writersAsync, writers }
    invoked
    outcome := match called with
      | .ok () => t1
      | .error fault => .failed fault }

/-- `arrivals` is what the inner stream's reads return one after another; reads of no
bytes are repeated. -/
def repeatRead (answers : Answers F G) (d : StreamDemultiplexer F G S) :
    List (Except Fault (List UInt8)) → Effect F G S ℕ
  | [] => { demux := d, outcome := .pending }
  | .error fault :: _ => { demux := d, outcome := .failed fault }
  | .ok [] :: arrivals => repeatRead answers d arrivals
  | .ok slice :: _ =>
    let e := d.notifyReadersAsync answers slice
    { demux := e.demux
      invoked := e.invoked
      outcome := match e.outcome with
        | .done () => .done slice.length
        | .pending => .pending
        | .failed fault => .failed fault }

def readAsync (answers : Answers F G) (arrivals : List (Except Fault (List UInt8)))
    (d : StreamDemultiplexer F G S) : Effect F G S ℕ :=
  match d.innerStream with
  | none => { demux := d, outcome := .failed (.raised .nullReference) }
  | some _ => d.repeatRead answers arrivals

/-- `written` is how the inner stream's write ends. `Write` waits for the same task. -/
def writeAsync (answers : Answers F G) (buffer : List UInt8) (written : Except Fault Unit)
    (d : StreamDemultiplexer F G S) : Effect F G S Unit :=
  match d.innerStream, written with
  | none, _ => { demux := d, outcome := .failed (.raised .nullReference) }
  | some _, .error fault => { demux := d, outcome := .failed fault }
  | some _, .ok () => d.notifyWritersAsync answers buffer

def close (d : StreamDemultiplexer F G S) : StreamDemultiplexer F G S :=
  { d with innerStream := none, counter := 0, counterWriter := 0 }

end StreamDemultiplexer

/-! ### Who is invoked and who stays -/

theorem invokeAll_invoked {invoke : F → Except Fault Bool} {items : List (ℤ × F)} {f : F}
    (h : f ∈ (invokeAll invoke items).1) : f ∈ items.map Prod.snd := by
  induction items with
  | nil => simp [invokeAll] at h
  | cons item items ih =>
    obtain ⟨key, value⟩ := item
    simp only [invokeAll] at h
    cases hv : invoke value with
    | error fault =>
      rw [hv] at h
      simp_all
    | ok isUnsubscribe =>
      rw [hv] at h
      simp only [List.mem_cons, List.map_cons] at h ⊢
      exact h.imp_right ih

/-- A delegate that throws ends the loop; the first entry is invoked in any case. -/
theorem invokeAll_head {invoke : F → Except Fault Bool} {key : ℤ} {value : F}
    {items : List (ℤ × F)} : value ∈ (invokeAll invoke ((key, value) :: items)).1 := by
  simp only [invokeAll]
  cases invoke value <;> simp

theorem invokeAll_total {invoke : F → Except Fault Bool} {items : List (ℤ × F)}
    (h : ∀ item ∈ items, ∃ b, invoke item.2 = .ok b) :
    (invokeAll invoke items).1 = items.map Prod.snd := by
  induction items with
  | nil => rfl
  | cons item items ih =>
    obtain ⟨key, value⟩ := item
    obtain ⟨b, hb⟩ := h _ List.mem_cons_self
    simp only [invokeAll]
    rw [hb]
    simp [ih fun i hi => h i (List.mem_cons_of_mem _ hi)]

theorem notifySubscribers_invoked {answers : Answers F G} {buffer : List UInt8}
    {list : Dictionary ℤ F} {f : F} (h : f ∈ (notifySubscribers answers buffer list).2.1) :
    f ∈ list.values := by
  have hi : f ∈ (invokeAll (answers.invoke · buffer) list.items).1 := by
    unfold notifySubscribers at h
    split at h <;> simp_all
  exact invokeAll_invoked hi

theorem notifySubscribers_values {answers : Answers F G} {buffer : List UInt8}
    {list : Dictionary ℤ F} {f : F} (h : f ∈ (notifySubscribers answers buffer list).1.values) :
    f ∈ list.values := by
  unfold notifySubscribers at h
  split at h
  · exact Dictionary.values_removeAll h
  · exact h

theorem removeFinished_values {answers : Answers F G} {operations : List (AsyncOperation G)}
    {list : Dictionary ℤ (AsyncOperation G)} {o : AsyncOperation G}
    (h : o ∈ (removeFinished answers operations list).1.values) : o ∈ list.values := by
  induction operations generalizing list with
  | nil => exact h
  | cons asyncOperation operations ih =>
    unfold removeFinished at h
    split at h
    · exact h
    · exact h
    · exact Dictionary.values_remove (ih h)
    · exact ih h

theorem notifySubscribersAsync_values {answers : Answers F G}
    {list : Dictionary ℤ (AsyncOperation G)} {o : AsyncOperation G}
    (h : o ∈ (notifySubscribersAsync answers list).1.values) : o ∈ list.values := by
  unfold notifySubscribersAsync at h
  simp only at h
  split at h
  · exact h
  · exact h
  · exact removeFinished_values h

end DecodingProxy.Streams
