import DecodingProxy.Lib.Runs
import DecodingProxy.Streams.StreamDemultiplexer
import Mathlib.Tactic.Common

/-!
# Which slices a subscriber is called with

In a session subscribers are registered, slices are read and written, and each slice goes to the
delegates of its side. The keys of the delegates that return `true` are removed behind the loop. A
run ends when a delegate throws, and so it does when one registers another from inside the loop.
-/

namespace DecodingProxy.Streams
open DecodingProxy.Runtime DecodingProxy.Runs

variable {G S : Type*}

inductive Side
  | reader
  | writer
  deriving DecidableEq, Repr

/-- The calls of a session. The subscribers are numbered in the order of their registration. -/
inductive SessionCall (G : Type*)
  | regist (side : Side)
  | registReaderAsync (value : AsyncOperation G)
  | registReaderReverse (key : ℤ)
  | readAsync (answers : Answers ℕ G) (arrivals : List (Except Fault (List UInt8)))
  | writeAsync (answers : Answers ℕ G) (buffer : List UInt8) (written : Except Fault Unit)

/-- The bytes of the first read that returns any. -/
def arrived : List (Except Fault (List UInt8)) → Option (List UInt8)
  | [] => none
  | .error _ :: _ => none
  | .ok [] :: arrivals => arrived arrivals
  | .ok slice :: _ => some slice

namespace SessionCall

/-- The slice that the subscribers of a side are notified of, with their answers. -/
def slice : Side → SessionCall G → Option (Answers ℕ G × List UInt8)
  | .reader, readAsync answers arrivals => (arrived arrivals).map (answers, ·)
  | .writer, writeAsync answers buffer (.ok ()) => some (answers, buffer)
  | _, _ => none

/-- Only readers can be removed by their key. -/
def removes : Side → ℤ → SessionCall G → Bool
  | .reader, key, registReaderReverse key' => key = key'
  | _, _, _ => false

end SessionCall

structure DemuxSession (G S : Type*) where
  demux : StreamDemultiplexer ℕ G S
  /-- The number of the next subscriber. -/
  next : ℕ := 0
  /-- The delegates that were invoked, with the slice. -/
  calls : List (ℕ × List UInt8) := []

namespace DemuxSession

def table (s : DemuxSession G S) : Side → Dictionary ℤ ℕ
  | .reader => s.demux.readers
  | .writer => s.demux.writers

/-- The key that the next registration takes. -/
def nextKey (s : DemuxSession G S) : Side → ℤ
  | .reader => increment s.demux.counter
  | .writer => increment s.demux.counterWriter

/-- The slices that the subscriber was called with, in their order. -/
def called (s : DemuxSession G S) (i : ℕ) : List (List UInt8) :=
  (s.calls.filter fun call => call.1 = i).map Prod.snd

/-- A registration that throws makes no subscriber. -/
def registered (s : DemuxSession G S) (e : Effect ℕ G S ℤ) : DemuxSession G S :=
  match e.outcome with
  | .done _ => { s with demux := e.demux, next := s.next + 1 }
  | _ => { s with demux := e.demux }

/-- The effect of a call that notifies the subscribers of a side, if it comes to that. -/
def notified {α : Type*} (s : DemuxSession G S) (side : Side) (call : SessionCall G)
    (e : Effect ℕ G S α) : Except Fault (DemuxSession G S) :=
  match call.slice side with
  | none => .ok { s with demux := e.demux }
  | some (answers, slice) =>
    match (notifySubscribers answers slice (s.table side)).2.2 with
    | .error fault => .error fault
    | .ok () => .ok { s with
        demux := e.demux
        calls := s.calls ++ e.invoked.map (·, slice) }

/-- Other exceptions, of the inner stream or of a task, do not end the session. -/
def step (s : DemuxSession G S) (call : SessionCall G) : Except Fault (DemuxSession G S) :=
  match call with
  | .regist .reader => .ok (s.registered (s.demux.registReader s.next))
  | .regist .writer => .ok (s.registered (s.demux.registWriter s.next))
  | .registReaderAsync value => .ok { s with demux := (s.demux.registReaderAsync value).demux }
  | .registReaderReverse key => .ok { s with demux := s.demux.registReaderReverse key }
  | .readAsync answers arrivals => s.notified .reader call (s.demux.readAsync answers arrivals)
  | .writeAsync answers buffer written =>
    s.notified .writer call (s.demux.writeAsync answers buffer written)

end DemuxSession

/-- What a subscriber is to be called with: every slice while it is live, that is until it returns
`true` or is removed by its key. -/
structure Owed where
  slices : List (List UInt8) := []
  live : Bool := true

def Owed.next (side : Side) (i : ℕ) (key : ℤ) (o : Owed) (call : SessionCall G) : Owed :=
  if o.live then
    match call.slice side with
    | some (answers, slice) =>
      { slices := o.slices ++ [slice], live := decide (answers.invoke i slice ≠ .ok true) }
    | none => { o with live := !call.removes side key }
  else o

/-- From the registration on. -/
def owed (side : Side) (i : ℕ) (key : ℤ) (calls : List (SessionCall G)) : Owed :=
  calls.foldl (Owed.next side i key) {}

/-! ### One notification -/

section Notification
variable {F : Type*} {answers : Answers F G} {buffer : List UInt8} {list : Dictionary ℤ F}

theorem invokeAll_ok {invoke : F → Except Fault Bool} {items : List (ℤ × F)} {keys : List ℤ}
    (h : (invokeAll invoke items).2 = .ok keys) :
    (invokeAll invoke items).1 = items.map Prod.snd ∧
      ∀ key, key ∈ keys ↔ ∃ value, (key, value) ∈ items ∧ invoke value = .ok true := by
  induction items generalizing keys with
  | nil =>
    cases h
    simp [invokeAll]
  | cons item items ih =>
    obtain ⟨key, value⟩ := item
    simp only [invokeAll] at h ⊢
    cases hv : invoke value with
    | error fault =>
      rw [hv] at h
      cases h
    | ok isUnsubscribe =>
      rw [hv] at h
      obtain ⟨rest, hrest, rfl⟩ := map_ok_iff.mp h
      obtain ⟨hinvoked, hkeys⟩ := ih hrest
      refine ⟨by simp [hinvoked], fun k => ?_⟩
      cases isUnsubscribe <;> simp [hkeys, hv, or_and_right, exists_or]

/-- Where no delegate throws, all are invoked, and those that return `true` are removed. -/
theorem notifySubscribers_ok (h : (notifySubscribers answers buffer list).2.2 = .ok ()) :
    (notifySubscribers answers buffer list).2.1 = list.values ∧
      ∀ key f, AList.lookup key (notifySubscribers answers buffer list).1 = some f ↔
        AList.lookup key list = some f ∧ answers.invoke f buffer ≠ .ok true := by
  unfold notifySubscribers at h ⊢
  match hall : invokeAll (answers.invoke · buffer) list.items with
  | (invoked, .error fault) =>
    rw [hall] at h
    cases h
  | (invoked, .ok keysToDelete) =>
    obtain ⟨hinvoked, hkeys⟩ := invokeAll_ok (congrArg Prod.snd hall)
    rw [hall] at hinvoked
    refine ⟨hinvoked, fun key f => ?_⟩
    rw [Dictionary.lookup_removeAll]
    by_cases hkey : key ∈ keysToDelete
    · obtain ⟨value, hmem, htrue⟩ := (hkeys key).mp hkey
      have hlookup := Dictionary.mem_items.mp hmem
      simp only [if_pos hkey, hlookup, Option.some.injEq, reduceCtorEq, false_iff, not_and,
        not_not]
      rintro rfl
      exact htrue
    · rw [if_neg hkey]
      refine ⟨fun hlookup => ⟨hlookup, fun htrue => hkey ?_⟩, And.left⟩
      exact (hkeys key).mpr ⟨f, Dictionary.mem_items.mpr hlookup, htrue⟩

end Notification

/-! ### One call -/

theorem side_ext {β : Type*} {f g : Side → β} (reader : f .reader = g .reader)
    (writer : f .writer = g .writer) : f = g := by
  funext side
  cases side
  · exact reader
  · exact writer

/-- What stands in one of two tables after the other, or this one, was changed. -/
theorem lookup_update {f : Side → Dictionary ℤ ℕ} {side side' : Side} {d : Dictionary ℤ ℕ}
    {key : ℤ} {i : ℕ} (h : AList.lookup key (Function.update f side' d side) = some i) :
    side = side' ∧ AList.lookup key d = some i ∨ AList.lookup key (f side) = some i := by
  by_cases hside : side = side'
  · subst hside
    rw [Function.update_self] at h
    exact .inl ⟨rfl, h⟩
  · rw [Function.update_of_ne hside] at h
    exact .inr h

/-- What a call can do to the tables, the numbers and the calls of a session. -/
inductive Change (s : DemuxSession G S) (call : SessionCall G) (s' : DemuxSession G S) : Prop
  | quiet (no_slice : ∀ side, call.slice side = none)
      (no_removal : ∀ side key, call.removes side key = false) (table : s'.table = s.table)
      (next : s'.next = s.next) (calls : s'.calls = s.calls)
  | registered (side : Side) (regist : call = .regist side) (d : Dictionary ℤ ℕ)
      (add : (s.table side).add (s.nextKey side) s.next = .ok d)
      (table : s'.table = Function.update s.table side d) (next : s'.next = s.next + 1)
      (calls : s'.calls = s.calls)
  | removed (key : ℤ) (reverse : call = .registReaderReverse key)
      (table : s'.table = Function.update s.table .reader ((s.table .reader).remove key))
      (next : s'.next = s.next) (calls : s'.calls = s.calls)
  | notified (side : Side) (answers : Answers ℕ G) (slice : List UInt8)
      (has_slice : call.slice side = some (answers, slice))
      (no_other : ∀ other, other ≠ side → call.slice other = none)
      (no_removal : ∀ side key, call.removes side key = false)
      (returned : (notifySubscribers answers slice (s.table side)).2.2 = .ok ())
      (table : s'.table =
        Function.update s.table side (notifySubscribers answers slice (s.table side)).1)
      (next : s'.next = s.next)
      (calls : s'.calls = s.calls ++ (s.table side).values.map (·, slice))

namespace DemuxSession

/-- The stream is there, and all numbers were given out. -/
structure Sound (s : DemuxSession G S) : Prop where
  opened : s.demux.innerStream.isSome = true
  table : ∀ side key i, AList.lookup key (s.table side) = some i → i < s.next
  calls : ∀ call ∈ s.calls, call.1 < s.next

variable {s s' : DemuxSession G S} {call : SessionCall G}

theorem registReader_change {e : Effect ℕ G S ℤ} (he : s.demux.registReader s.next = e) :
    Change s (.regist .reader) (s.registered e) ∧
      (s.registered e).demux.innerStream = s.demux.innerStream := by
  subst he
  unfold StreamDemultiplexer.registReader
  rcases Dictionary.add_cases s.demux.readers (increment s.demux.counter) s.next with
    ⟨-, hadd⟩ | ⟨d, -, hadd⟩
  · simp only [hadd]
    exact ⟨.quiet (by rintro ⟨⟩ <;> rfl) (by rintro ⟨⟩ _ <;> rfl) (side_ext rfl rfl) rfl rfl, rfl⟩
  · simp only [hadd]
    exact ⟨.registered .reader rfl d hadd (side_ext rfl rfl) rfl rfl, rfl⟩

theorem registWriter_change {e : Effect ℕ G S ℤ} (he : s.demux.registWriter s.next = e) :
    Change s (.regist .writer) (s.registered e) ∧
      (s.registered e).demux.innerStream = s.demux.innerStream := by
  subst he
  unfold StreamDemultiplexer.registWriter
  rcases Dictionary.add_cases s.demux.writers (increment s.demux.counterWriter) s.next with
    ⟨-, hadd⟩ | ⟨d, -, hadd⟩
  · simp only [hadd]
    exact ⟨.quiet (by rintro ⟨⟩ <;> rfl) (by rintro ⟨⟩ _ <;> rfl) (side_ext rfl rfl) rfl rfl, rfl⟩
  · simp only [hadd]
    exact ⟨.registered .writer rfl d hadd (side_ext rfl rfl) rfl rfl, rfl⟩

/-- Reads of no bytes are repeated, and the subscribers are notified of the first others. -/
theorem repeatRead_arrived (answers : Answers ℕ G) (d : StreamDemultiplexer ℕ G S)
    (arrivals : List (Except Fault (List UInt8))) :
    match arrived arrivals with
    | none => (d.repeatRead answers arrivals).demux = d
    | some slice =>
      (d.repeatRead answers arrivals).demux = (d.notifyReadersAsync answers slice).demux ∧
        (d.repeatRead answers arrivals).invoked =
          (d.notifyReadersAsync answers slice).invoked := by
  induction arrivals with
  | nil => rfl
  | cons arrival arrivals ih =>
    match arrival with
    | .error fault => rfl
    | .ok [] => exact ih
    | .ok (b :: bs) => exact ⟨rfl, rfl⟩

theorem readAsync_change {answers : Answers ℕ G} {arrivals : List (Except Fault (List UInt8))}
    (hopened : s.demux.innerStream.isSome = true)
    (h : s.notified .reader (.readAsync answers arrivals) (s.demux.readAsync answers arrivals) =
      .ok s') :
    Change s (.readAsync answers arrivals) s' ∧
      s'.demux.innerStream = s.demux.innerStream := by
  obtain ⟨stream, hstream⟩ := Option.isSome_iff_exists.mp hopened
  have hread := repeatRead_arrived answers s.demux arrivals
  simp only [notified, SessionCall.slice, StreamDemultiplexer.readAsync, hstream] at h
  cases hslice : arrived arrivals with
  | none =>
    rw [hslice] at hread h
    cases h
    refine ⟨.quiet (by rintro ⟨⟩ <;> simp [SessionCall.slice, hslice]) (by rintro ⟨⟩ _ <;> rfl)
      ?_ rfl rfl, by rw [hread]⟩
    exact side_ext (by simp only [table, hread]) (by simp only [table, hread])
  | some slice =>
    rw [hslice] at hread h
    obtain ⟨hdemux, hinvoked⟩ := hread
    cases hreturned : (notifySubscribers answers slice (s.table .reader)).2.2 with
    | error fault => simp only [Option.map_some, hreturned, reduceCtorEq] at h
    | ok _ =>
      simp only [Option.map_some, hreturned, Except.ok.injEq] at h
      subst h
      refine ⟨.notified .reader answers slice (by simp [SessionCall.slice, hslice])
        (by rintro ⟨⟩ hne <;> first | exact absurd rfl hne | rfl) (by rintro ⟨⟩ _ <;> rfl) hreturned
        ?_ rfl ?_, by rw [hdemux]; rfl⟩
      · exact side_ext (by simp only [table, hdemux]; rfl) (by simp only [table, hdemux]; rfl)
      · simp only [hinvoked]
        rw [← (notifySubscribers_ok hreturned).1]
        rfl

theorem writeAsync_change {answers : Answers ℕ G} {buffer : List UInt8}
    {written : Except Fault Unit} (hopened : s.demux.innerStream.isSome = true)
    (h : s.notified .writer (.writeAsync answers buffer written)
      (s.demux.writeAsync answers buffer written) = .ok s') :
    Change s (.writeAsync answers buffer written) s' ∧
      s'.demux.innerStream = s.demux.innerStream := by
  obtain ⟨stream, hstream⟩ := Option.isSome_iff_exists.mp hopened
  cases written with
  | error fault =>
    simp only [notified, SessionCall.slice, StreamDemultiplexer.writeAsync, hstream] at h
    cases h
    exact ⟨.quiet (by rintro ⟨⟩ <;> rfl) (by rintro ⟨⟩ _ <;> rfl) (side_ext rfl rfl) rfl rfl, rfl⟩
  | ok _ =>
    simp only [notified, SessionCall.slice, StreamDemultiplexer.writeAsync, hstream] at h
    cases hreturned : (notifySubscribers answers buffer (s.table .writer)).2.2 with
    | error fault => simp only [hreturned, reduceCtorEq] at h
    | ok _ =>
      simp only [hreturned, Except.ok.injEq] at h
      subst h
      refine ⟨.notified .writer answers buffer rfl
        (by rintro ⟨⟩ hne <;> first | exact absurd rfl hne | rfl) (by rintro ⟨⟩ _ <;> rfl) hreturned
        (side_ext rfl rfl) rfl ?_, rfl⟩
      rw [← (notifySubscribers_ok hreturned).1]
      rfl

theorem step_change (hs : s.Sound) (h : s.step call = .ok s') :
    Change s call s' ∧ s'.demux.innerStream.isSome = true := by
  suffices hchange : Change s call s' ∧ s'.demux.innerStream = s.demux.innerStream from
    ⟨hchange.1, by rw [hchange.2]; exact hs.opened⟩
  cases call with
  | regist side =>
    cases side with
    | reader =>
      cases h
      exact registReader_change rfl
    | writer =>
      cases h
      exact registWriter_change rfl
  | registReaderAsync value =>
    cases h
    unfold StreamDemultiplexer.registReaderAsync
    rcases Dictionary.add_cases s.demux.readersAsync (increment s.demux.counter) value with
      ⟨-, hadd⟩ | ⟨d, -, hadd⟩ <;> simp only [hadd]
    all_goals
      exact ⟨.quiet (by rintro ⟨⟩ <;> rfl) (by rintro ⟨⟩ _ <;> rfl) (side_ext rfl rfl) rfl rfl,
        trivial⟩
  | registReaderReverse key =>
    cases h
    exact ⟨.removed key rfl (side_ext rfl rfl) rfl rfl, rfl⟩
  | readAsync answers arrivals => exact readAsync_change hs.opened h
  | writeAsync answers buffer written => exact writeAsync_change hs.opened h

/-! ### One subscriber -/

/-- The subscriber `i` has been called with what is owed to it, and it is in the table, behind its
key and nowhere else, as long as it is live. -/
structure Tracks (side : Side) (i : ℕ) (key : ℤ) (s : DemuxSession G S) (o : Owed) : Prop where
  known : i < s.next
  called : s.called i = o.slices
  live : AList.lookup key (s.table side) = some i ↔ o.live = true
  elsewhere : ∀ side' key', AList.lookup key' (s.table side') = some i →
    side' = side ∧ key' = key

variable {side : Side} {i : ℕ} {key : ℤ} {o : Owed}

theorem called_append (s : DemuxSession G S) (values : List ℕ) (slice : List UInt8) (i : ℕ)
    (h : s'.calls = s.calls ++ values.map (·, slice)) :
    s'.called i = s.called i ++ (values.filter (· = i)).map fun _ => slice := by
  simp only [called, h, List.filter_append, List.map_append, List.filter_map, List.map_map]
  rfl

/-- A call brings no subscriber into a table but the one that it registers. -/
theorem lookup_of_change (h : Change s call s') {side : Side} {key : ℤ} {i : ℕ}
    (hlookup : AList.lookup key (s'.table side) = some i) :
    AList.lookup key (s.table side) = some i ∨ i = s.next ∧ s'.next = s.next + 1 := by
  cases h with
  | quiet _ _ table _ _ =>
    rw [table] at hlookup
    exact .inl hlookup
  | registered side' _ d add table next _ =>
    rw [table] at hlookup
    obtain ⟨rfl, hnew⟩ | hold := lookup_update hlookup
    · rw [Dictionary.lookup_of_add add] at hnew
      split_ifs at hnew
      · exact .inr ⟨(Option.some.inj hnew).symm, next⟩
      · exact .inl hnew
    · exact .inl hold
  | removed key' _ table _ _ =>
    rw [table] at hlookup
    obtain ⟨rfl, hleft⟩ | hold := lookup_update hlookup
    · rw [Dictionary.lookup_remove] at hleft
      split_ifs at hleft
      exact .inl hleft
    · exact .inl hold
  | notified side' answers slice _ _ _ returned table _ _ =>
    rw [table] at hlookup
    obtain ⟨rfl, hleft⟩ | hold := lookup_update hlookup
    · exact .inl (((notifySubscribers_ok returned).2 key i).mp hleft).1
    · exact .inl hold

theorem next_le_of_change (h : Change s call s') : s.next ≤ s'.next := by
  cases h with
  | quiet _ _ _ next _ => exact next.ge
  | registered _ _ _ _ _ next _ => exact next ▸ Nat.le_succ _
  | removed _ _ _ next _ => exact next.ge
  | notified _ _ _ _ _ _ _ _ next _ => exact next.ge

/-- Only subscribers in a table are called. -/
theorem mem_calls_of_change (h : Change s call s') {c : ℕ × List UInt8} (hc : c ∈ s'.calls) :
    c ∈ s.calls ∨ ∃ side key, AList.lookup key (s.table side) = some c.1 := by
  cases h with
  | quiet _ _ _ _ calls => exact .inl (calls ▸ hc)
  | registered _ _ _ _ _ _ calls => exact .inl (calls ▸ hc)
  | removed _ _ _ _ calls => exact .inl (calls ▸ hc)
  | notified side _ slice _ _ _ _ _ _ calls =>
    rw [calls, List.mem_append] at hc
    refine hc.imp id fun hnew => ?_
    obtain ⟨j, hj, rfl⟩ := List.mem_map.mp hnew
    obtain ⟨key, hkey⟩ := Dictionary.mem_values.mp hj
    exact ⟨side, key, AList.mem_lookup_iff.mpr hkey⟩

theorem Sound.change (hs : s.Sound) (hopened : s'.demux.innerStream.isSome = true)
    (h : Change s call s') : s'.Sound := by
  constructor
  case opened => exact hopened
  case table =>
    intro side key i hlookup
    obtain hold | ⟨rfl, hnext⟩ := lookup_of_change h hlookup
    · exact (hs.table side key i hold).trans_le (next_le_of_change h)
    · rw [hnext]
      exact Nat.lt_succ_self _
  case calls =>
    intro c hc
    obtain hold | ⟨side, key, hlookup⟩ := mem_calls_of_change h hc
    · exact (hs.calls c hold).trans_le (next_le_of_change h)
    · exact (hs.table side key c.1 hlookup).trans_le (next_le_of_change h)

/-- A new subscriber is live and has not been called. -/
theorem Tracks.new (hs : s.Sound) {d : Dictionary ℤ ℕ}
    (hadd : (s.table side).add (s.nextKey side) s.next = .ok d)
    (htable : s'.table = Function.update s.table side d) (hnext : s'.next = s.next + 1)
    (hcalls : s'.calls = s.calls) : Tracks side s.next (s.nextKey side) s' {} := by
  constructor
  case known =>
    rw [hnext]
    exact Nat.lt_succ_self _
  case called =>
    have hnone : s.calls.filter (fun call => call.1 = s.next) = [] := by
      refine List.filter_eq_nil_iff.mpr fun call hmem heq => ?_
      exact absurd (of_decide_eq_true heq) (hs.calls call hmem).ne
    rw [DemuxSession.called, hcalls, hnone]
    rfl
  case live =>
    rw [htable, Function.update_self, Dictionary.lookup_of_add hadd]
    simp
  case elsewhere =>
    intro side' key' hlookup
    rw [htable] at hlookup
    obtain ⟨rfl, hnew⟩ | hold := lookup_update hlookup
    · rw [Dictionary.lookup_of_add hadd] at hnew
      split_ifs at hnew with hkey
      · exact ⟨rfl, hkey⟩
      · exact absurd (hs.table _ _ _ hnew) (lt_irrefl _)
    · exact absurd (hs.table _ _ _ hold) (lt_irrefl _)

theorem next_quiet (hslice : call.slice side = none) (hremoves : call.removes side key = false) :
    o.next side i key call = o := by
  unfold Owed.next
  rw [hslice, hremoves]
  split_ifs with hlive
  · simp [← hlive]
  · rfl

/-- Another subscriber is registered. -/
theorem Tracks.registered (ht : Tracks side i key s o) {side' : Side} {d : Dictionary ℤ ℕ}
    (hadd : (s.table side').add (s.nextKey side') s.next = .ok d)
    (htable : s'.table = Function.update s.table side' d) (hnext : s'.next = s.next + 1)
    (hcalls : s'.calls = s.calls) : Tracks side i key s' o := by
  have hlookup (side₁ : Side) (key₁ : ℤ) : AList.lookup key₁ (s'.table side₁) = some i ↔
      AList.lookup key₁ (s.table side₁) = some i := by
    rw [htable]
    by_cases hside : side₁ = side'
    · subst hside
      rw [Function.update_self, Dictionary.lookup_of_add hadd]
      split_ifs with hkey
      · have hfresh : s.nextKey side₁ ∉ s.table side₁ := by
          intro hmem
          rw [Dictionary.add, if_pos hmem] at hadd
          cases hadd
        rw [hkey, AList.lookup_eq_none.mpr hfresh, Option.some.injEq]
        exact iff_of_false ht.known.ne' (by simp)
      · rfl
    · rw [Function.update_of_ne hside]
  refine ⟨?_, ?_, ?_, ?_⟩
  · rw [hnext]
    exact ht.known.trans (Nat.lt_succ_self _)
  · rw [DemuxSession.called, hcalls]
    exact ht.called
  · rw [hlookup]
    exact ht.live
  · intro side₁ key₁ h
    exact ht.elsewhere side₁ key₁ ((hlookup side₁ key₁).mp h)

theorem Tracks.removed (ht : Tracks side i key s o) {key' : ℤ}
    (htable : s'.table = Function.update s.table .reader ((s.table .reader).remove key'))
    (hnext : s'.next = s.next) (hcalls : s'.calls = s.calls) :
    Tracks side i key s' (o.next side i key (.registReaderReverse key' : SessionCall G)) := by
  have hlookup (side₁ : Side) (key₁ : ℤ) : AList.lookup key₁ (s'.table side₁) = some i ↔
      ¬ (side₁ = .reader ∧ key₁ = key') ∧ AList.lookup key₁ (s.table side₁) = some i := by
    rw [htable]
    by_cases hside : side₁ = .reader
    · subst hside
      rw [Function.update_self, Dictionary.lookup_remove]
      split_ifs with hkey <;> simp [hkey]
    · rw [Function.update_of_ne hside]
      simp [hside]
  have howed : (o.next side i key (.registReaderReverse key' : SessionCall G)).slices = o.slices ∧
      ((o.next side i key (.registReaderReverse key' : SessionCall G)).live = true ↔
        ¬ (side = .reader ∧ key = key') ∧ o.live = true) := by
    unfold Owed.next
    by_cases hlive : o.live = true <;> cases side <;>
      simp [hlive, SessionCall.slice, SessionCall.removes]
  refine ⟨?_, ?_, ?_, ?_⟩
  · rw [hnext]
    exact ht.known
  · rw [DemuxSession.called, hcalls, howed.1]
    exact ht.called
  · rw [hlookup, howed.2, ht.live]
  · intro side₁ key₁ h
    exact ht.elsewhere side₁ key₁ ((hlookup side₁ key₁).mp h).2

/-- The slice reaches the subscriber if it is live on this side, and its answer decides alone
whether it stays. -/
theorem Tracks.notified (ht : Tracks side i key s o) {side' : Side} {answers : Answers ℕ G}
    {slice : List UInt8} (hslice : call.slice side' = some (answers, slice))
    (hother : ∀ other, other ≠ side' → call.slice other = none)
    (hremoves : ∀ side key, call.removes side key = false)
    (hreturned : (notifySubscribers answers slice (s.table side')).2.2 = .ok ())
    (htable : s'.table =
      Function.update s.table side' (notifySubscribers answers slice (s.table side')).1)
    (hnext : s'.next = s.next)
    (hcalls : s'.calls = s.calls ++ (s.table side').values.map (·, slice)) :
    Tracks side i key s' (o.next side i key call) := by
  have hstay := (notifySubscribers_ok hreturned).2
  have hcalled := called_append s (s.table side').values slice i hcalls
  have helsewhere : ∀ side₁ key₁, AList.lookup key₁ (s'.table side₁) = some i →
      AList.lookup key₁ (s.table side₁) = some i := by
    intro side₁ key₁ h
    rw [htable] at h
    obtain ⟨rfl, hleft⟩ | hold := lookup_update h
    · exact ((hstay key₁ i).mp hleft).1
    · exact hold
  by_cases hside : side = side'
  · subst hside
    rw [Dictionary.filter_values fun k hk => (ht.elsewhere side k hk).2] at hcalled
    have hlive : AList.lookup key (s'.table side) = some i ↔
        o.live = true ∧ answers.invoke i slice ≠ .ok true := by
      rw [htable, Function.update_self, hstay, ht.live]
    refine ⟨by rw [hnext]; exact ht.known, ?_, ?_, fun side₁ key₁ h =>
      ht.elsewhere side₁ key₁ (helsewhere side₁ key₁ h)⟩
    · rw [hcalled, ht.called]
      unfold Owed.next
      by_cases ho : o.live = true
      · rw [if_pos (ht.live.mpr ho), if_pos ho, hslice]
        rfl
      · rw [if_neg (ht.live.not.mpr ho), if_neg ho, List.map_nil, List.append_nil]
    · rw [hlive]
      unfold Owed.next
      by_cases ho : o.live = true
      · rw [if_pos ho, hslice]
        simp [ho]
      · rw [if_neg ho]
        simp [ho]
  · -- The subscriber is not in the table of the other side.
    have hnone : (s.table side').values.filter (· = i) = [] := by
      refine List.filter_eq_nil_iff.mpr fun j hj heq => ?_
      obtain rfl := of_decide_eq_true heq
      obtain ⟨k, hk⟩ := Dictionary.mem_values.mp hj
      exact hside (ht.elsewhere side' k (AList.mem_lookup_iff.mpr hk)).1.symm
    rw [next_quiet (hother side hside) (hremoves side key)]
    rw [hnone, List.map_nil, List.append_nil] at hcalled
    refine ⟨by rw [hnext]; exact ht.known, by rw [hcalled]; exact ht.called, ?_, fun side₁ key₁ h =>
      ht.elsewhere side₁ key₁ (helsewhere side₁ key₁ h)⟩
    rw [htable, Function.update_of_ne hside]
    exact ht.live

theorem Tracks.change (ht : Tracks side i key s o) (h : Change s call s') :
    Tracks side i key s' (o.next side i key call) := by
  cases h with
  | quiet no_slice no_removal table next calls =>
    rw [next_quiet (no_slice side) (no_removal side key)]
    refine ⟨by rw [next]; exact ht.known, ?_, by rw [table]; exact ht.live,
      by rw [table]; exact ht.elsewhere⟩
    rw [DemuxSession.called, calls]
    exact ht.called
  | registered side' regist d add table next calls =>
    subst regist
    rw [next_quiet (by cases side <;> rfl) (by cases side <;> rfl)]
    exact ht.registered add table next calls
  | removed key' reverse table next calls =>
    subst reverse
    exact ht.removed table next calls
  | notified side' answers slice has_slice no_other no_removal returned table next calls =>
    exact ht.notified has_slice no_other no_removal returned table next calls

/-! ### Runs -/

theorem run_tracks {after : List (SessionCall G)} (hs : s.Sound) (ht : Tracks side i key s {})
    (h : run step s after = .ok s') : Tracks side i key s' (owed side i key after) := by
  have hboth := run_history (I := fun calls t => t.Sound ∧ Tracks side i key t
    (owed side i key calls)) ⟨hs, ht⟩ ?_ h
  · exact hboth.2
  · rintro calls call t u ⟨hsound, htracks⟩ hstep
    obtain ⟨hchange, hopened⟩ := step_change hsound hstep
    refine ⟨hsound.change hopened hchange, ?_⟩
    rw [owed, List.foldl_concat]
    exact htracks.change hchange

theorem run_sound {calls : List (SessionCall G)} (hs : s.Sound) (h : run step s calls = .ok s') :
    s'.Sound :=
  run_history (I := fun _ t => t.Sound) hs (fun _ _ _ _ hsound hstep =>
    hsound.change (step_change hsound hstep).2 (step_change hsound hstep).1) h

theorem regist_fresh (hfresh : s.nextKey side ∉ s.table side)
    (h : s.step (.regist side) = .ok s') :
    ∃ d, (s.table side).add (s.nextKey side) s.next = .ok d ∧
      s'.table = Function.update s.table side d ∧ s'.next = s.next + 1 ∧ s'.calls = s.calls := by
  obtain ⟨d, hadd⟩ : ∃ d, (s.table side).add (s.nextKey side) s.next = .ok d :=
    ⟨_, if_neg hfresh⟩
  refine ⟨d, hadd, ?_⟩
  cases side with
  | reader =>
    have hadd' : s.demux.readers.add (increment s.demux.counter) s.next = .ok d := hadd
    simp only [step, StreamDemultiplexer.registReader, hadd', registered, Except.ok.injEq] at h
    subst h
    exact ⟨side_ext rfl rfl, rfl, rfl⟩
  | writer =>
    have hadd' : s.demux.writers.add (increment s.demux.counterWriter) s.next = .ok d := hadd
    simp only [step, StreamDemultiplexer.registWriter, hadd', registered, Except.ok.injEq] at h
    subst h
    exact ⟨side_ext rfl rfl, rfl, rfl⟩

/-- In whatever way the session goes on behind a registration that succeeds, the subscriber is
called with what is owed to it. -/
def Delivers (start : DemuxSession G S) (calls : List (SessionCall G)) : Prop :=
  ∀ before side after s t, before ++ .regist side :: after = calls →
    run step start before = .ok s → s.nextKey side ∉ s.table side → run step start calls = .ok t →
    t.called s.next = (owed side s.next (s.nextKey side) after).slices

/-- For every session, also one that starts with subscribers that an earlier one has left. -/
theorem deliversSlices (start : DemuxSession G S) (hstart : start.Sound)
    (calls : List (SessionCall G)) : Delivers start calls := by
  rintro before side after s t rfl hbefore hfresh hrun
  have hs : s.Sound := run_sound hstart hbefore
  obtain ⟨s₀, hs₀, hrest⟩ := run_append_ok_iff.mp hrun
  obtain rfl := Except.ok.inj (hbefore.symm.trans hs₀)
  obtain ⟨u, hstep, hafter⟩ := run_cons_ok_iff.mp hrest
  obtain ⟨hchange, hopened⟩ := step_change hs hstep
  obtain ⟨d, hadd, htable, hnext, hcalls⟩ := regist_fresh hfresh hstep
  have htracks : Tracks side s.next (s.nextKey side) u {} :=
    Tracks.new hs hadd htable hnext hcalls
  exact (run_tracks (hs.change hopened hchange) htracks hafter).called

/-- A new object after `Initilize`. -/
def initialized : DemuxSession Unit Unit := { demux := StreamDemultiplexer.initilize () {} }

theorem sound_initialized : initialized.Sound := by
  refine ⟨rfl, ?_, by simp [initialized]⟩
  intro side key i h
  cases side <;> cases h

/-- The first of two readers leaves with the first slice. -/
def firstLeaves : Answers ℕ Unit where
  invoke i _ := .ok (decide (i = 0))
  operation _ := none

theorem deliversSlices_two :
    Delivers initialized [.regist .reader, .regist .reader,
      .readAsync firstLeaves [.ok [], .ok [1]], .readAsync firstLeaves [.ok [2, 3]]] :=
  deliversSlices initialized sound_initialized _

end DemuxSession

end DecodingProxy.Streams
