import DecodingProxy.Sockets.SocketReaderBuffered

/-!
# What the interceptors of a reader are shown

`SockerReaderRawStackable` shows its interceptors the whole memory that it was asked to fill, with
what stood there before behind the bytes it received. `SocketReaderBuffered` shows its own
interceptors the bytes received. Neither shows anything of a synchronous transfer.
-/

namespace DecodingProxy.Sockets
open DecodingProxy.Runtime DecodingProxy.Arrays DecodingProxy.Runs

/-- An interceptor, with all the data it has been shown. What it does with them is code outside
the readers; its answer is ignored. -/
structure SocketReaderInterceptor (I : Type*) where
  state : I
  seen : List UInt8 := []

variable {I : Type*} (intercept : I → List UInt8 → Except Fault I)

/-- The loop over `interceptorsIn`. One that throws ends it. -/
def interceptAll (mem : List UInt8) :
    List (SocketReaderInterceptor I) → List (SocketReaderInterceptor I) × Option Fault
  | [] => ([], none)
  | interceptor :: interceptors =>
    let seen := interceptor.seen ++ mem
    match intercept interceptor.state mem with
    | .error fault => ({ interceptor with seen } :: interceptors, some fault)
    | .ok state =>
      let (interceptors, fault) := interceptAll mem interceptors
      ({ state, seen } :: interceptors, fault)

structure SockerReaderRawStackable (I : Type*) where
  interceptorsIn : List (SocketReaderInterceptor I) := []

/-- A transfer as the call leaves it: the memory it filled, the bytes that came from the socket,
and the exception it ends with. With no bytes and no exception it waits for more. -/
structure Transferred (I : Type*) where
  reader : SockerReaderRawStackable I
  mem : List UInt8
  recived : List UInt8 := []
  fault : Option Fault := none

namespace SockerReaderRawStackable

/-- The socket gives as many of `offered` as the memory holds. -/
def transferToAsync (mem offered : List UInt8) (r : SockerReaderRawStackable I) : Transferred I :=
  let recived := offered.take mem.length
  let mem := writeAt mem 0 recived
  if recived = [] then { reader := r, mem }
  else
    let (interceptorsIn, fault) := interceptAll intercept mem r.interceptorsIn
    { reader := { interceptorsIn }, mem, recived, fault }

def transferTo (array : List UInt8) (offset length : ℕ) (offered : List UInt8)
    (r : SockerReaderRawStackable I) : Transferred I :=
  if array.length < offset + length then
    { reader := r, mem := array, fault := some (.raised .argumentOutOfRange) }
  else
    let recived := offered.take length
    { reader := r, mem := writeAt array offset recived, recived }

end SockerReaderRawStackable

structure InterceptedReaderBuffered (I : Type*) extends SocketReaderBuffered where
  interceptorsIn : List (SocketReaderInterceptor I) := []

/-- The raw reader with a buffered one behind it, the bytes that came from the socket, and those
of them that came for the buffered reader. -/
structure InterceptedReaders (I : Type*) where
  raw : SockerReaderRawStackable I
  buffered : InterceptedReaderBuffered I
  recived : List UInt8 := []
  readed : List UInt8 := []

inductive TransferCall
  | transferToAsync (mem offered : List UInt8)
  | transferTo (array : List UInt8) (offset length : ℕ) (offered : List UInt8)
  | readToBufferAsync (offered : List UInt8)
  | bufferedTransferToAsync (size : ℕ) (offered : List UInt8)
  | bufferedTransferTo (array : List UInt8) (offset length : ℕ) (offered : List UInt8)

namespace InterceptedReaders

/-- `ReadToBufferAsync`. The raw reader fills the free part of the buffer. -/
def readToBufferAsync (offered : List UInt8) (s : InterceptedReaders I) : InterceptedReaders I :=
  match s.buffered.buffer.getMemory with
  | .error _ => s
  | .ok (start, room) =>
    let array := s.buffered.buffer.buffer
    let t := s.raw.transferToAsync intercept ((array.drop start).take room) offered
    let buffer := { s.buffered.buffer with buffer := writeAt array start t.mem }
    let s := { s with
      raw := t.reader
      recived := s.recived ++ t.recived
      readed := s.readed ++ t.recived }
    if t.fault.isSome ∨ t.recived = [] then { s with buffered := { s.buffered with buffer } }
    else
      let (interceptorsIn, _) := interceptAll intercept (t.mem.take t.recived.length)
        s.buffered.interceptorsIn
      { s with buffered := { buffer := buffer.advance t.recived.length, interceptorsIn } }

def bufferedTransferToAsync (size : ℕ) (offered : List UInt8) (s : InterceptedReaders I) :
    InterceptedReaders I :=
  let s := if s.buffered.buffer.length = 0 then s.readToBufferAsync intercept offered else s
  match s.buffered.buffer.transferTo size with
  | .error _ => s
  | .ok (_, buffer) => { s with buffered := { s.buffered with buffer } }

def bufferedTransferTo (array : List UInt8) (offset length : ℕ) (offered : List UInt8)
    (s : InterceptedReaders I) : InterceptedReaders I :=
  let t := s.raw.transferTo array offset length offered
  if t.fault.isSome then s
  else
    { s with
      buffered := { s.buffered with buffer := s.buffered.buffer.advance t.recived.length }
      recived := s.recived ++ t.recived
      readed := s.readed ++ t.recived }

/-- A call that throws leaves the readers as they are by then; the run goes on after it. -/
def perform (s : InterceptedReaders I) : TransferCall → InterceptedReaders I
  | .transferToAsync mem offered =>
    let t := s.raw.transferToAsync intercept mem offered
    { s with raw := t.reader, recived := s.recived ++ t.recived }
  | .transferTo array offset length offered =>
    let t := s.raw.transferTo array offset length offered
    { s with raw := t.reader, recived := s.recived ++ t.recived }
  | .readToBufferAsync offered => s.readToBufferAsync intercept offered
  | .bufferedTransferToAsync size offered => s.bufferedTransferToAsync intercept size offered
  | .bufferedTransferTo array offset length offered =>
    s.bufferedTransferTo array offset length offered

def step (s : InterceptedReaders I) (call : TransferCall) : Except Fault (InterceptedReaders I) :=
  .ok (s.perform intercept call)

/-- Each interceptor has seen the bytes that came for its reader. -/
def Exact (s : InterceptedReaders I) : Prop :=
  (∀ i ∈ s.raw.interceptorsIn, i.seen = s.recived) ∧
    ∀ i ∈ s.buffered.interceptorsIn, i.seen = s.readed

/-- Nobody has been shown anything yet. -/
def start (raw buffered : List I) (buffer : SocketBufferDefault) : InterceptedReaders I where
  raw := { interceptorsIn := raw.map fun state => { state } }
  buffered := { buffer, interceptorsIn := buffered.map fun state => { state } }

end InterceptedReaders

/-- Only the last interceptor may throw. -/
def Endure (data : List UInt8) (interceptors : List (SocketReaderInterceptor I)) : Prop :=
  ∀ i ∈ interceptors.dropLast, ∃ state, intercept i.state data = .ok state

/-- Of an asynchronous transfer into `room` bytes: if there are interceptors at the raw reader,
the bytes fill the room; and the interceptors get through. -/
def ShowsAll (room : ℕ) (offered : List UInt8)
    (raw behind : List (SocketReaderInterceptor I)) : Prop :=
  offered.take room = [] ∨
    (raw = [] ∨ room ≤ offered.length) ∧ Endure intercept (offered.take room) (raw ++ behind)

namespace InterceptedReaders

/-- A call of the buffered reader that reads: the free part of the buffer is the room. -/
def ReadShowsAll (offered : List UInt8) (s : InterceptedReaders I) : Prop :=
  ∀ start room, s.buffered.buffer.getMemory = .ok (start, room) →
    ShowsAll intercept room offered s.raw.interceptorsIn s.buffered.interceptorsIn

/-- What the interceptors are shown is what is received. -/
def Shows (s : InterceptedReaders I) : TransferCall → Prop
  | .transferToAsync mem offered =>
    ShowsAll intercept mem.length offered s.raw.interceptorsIn []
  | .transferTo array offset length offered =>
    offset + length ≤ array.length → offered.take length = [] ∨ s.raw.interceptorsIn = []
  | .readToBufferAsync offered => s.ReadShowsAll intercept offered
  | .bufferedTransferToAsync _ offered =>
    s.buffered.buffer.length = 0 → s.ReadShowsAll intercept offered
  | .bufferedTransferTo array offset length offered =>
    offset + length ≤ array.length → offered.take length = [] ∨
      s.raw.interceptorsIn = [] ∧ s.buffered.interceptorsIn = []

end InterceptedReaders

/-! ### The loop over the interceptors -/

variable {intercept}

theorem interceptAll_fault_iff {mem : List UInt8}
    {interceptors : List (SocketReaderInterceptor I)} :
    (interceptAll intercept mem interceptors).2 = none ↔
      ∀ i ∈ interceptors, ∃ state, intercept i.state mem = .ok state := by
  induction interceptors with
  | nil => simp [interceptAll]
  | cons i is ih =>
    rw [List.forall_mem_cons, ← ih, interceptAll]
    cases h : intercept i.state mem with
    | error fault => simp
    | ok state => simp

/-- Those who are shown nothing miss the data. -/
theorem missed_iff {data before : List UInt8} {interceptors : List (SocketReaderInterceptor I)}
    (hbefore : ∀ i ∈ interceptors, i.seen = before) (hdata : data ≠ []) :
    (∀ i ∈ interceptors, i.seen = before ++ data) ↔ interceptors = [] := by
  cases interceptors with
  | nil => simp
  | cons i is =>
    refine iff_of_false (fun h => ?_) (List.cons_ne_nil i is)
    have hi := h i List.mem_cons_self
    rw [hbefore i List.mem_cons_self] at hi
    exact hdata (List.self_eq_append_right.mp hi)

/-- All have seen the data just when these are what was shown, and nobody but the last threw. -/
theorem interceptAll_seen_iff {mem data before : List UInt8}
    {interceptors : List (SocketReaderInterceptor I)}
    (hbefore : ∀ i ∈ interceptors, i.seen = before) (hdata : data ≠ []) :
    (∀ i ∈ (interceptAll intercept mem interceptors).1, i.seen = before ++ data) ↔
      interceptors = [] ∨ mem = data ∧ Endure intercept mem interceptors := by
  induction interceptors with
  | nil => simp [interceptAll]
  | cons i is ih =>
    obtain ⟨hi, his⟩ := List.forall_mem_cons.mp hbefore
    have hfirst : i.seen ++ mem = before ++ data ↔ mem = data := by
      rw [hi, List.append_cancel_left_eq]
    have hmissed := missed_iff his hdata
    rw [interceptAll]
    simp only [List.cons_ne_nil, false_or]
    cases h : intercept i.state mem with
    | error fault =>
      rw [List.forall_mem_cons, hfirst, hmissed]
      refine and_congr_right fun _ => ?_
      cases is with
      | nil => simp [Endure]
      | cons j js => simp [Endure, h]
    | ok state =>
      rw [List.forall_mem_cons, hfirst, ih his]
      refine and_congr_right fun hmem => ?_
      subst hmem
      cases is with
      | nil => simp [Endure]
      | cons j js => simp [Endure, h]

/-! ### One call -/

theorem transferToAsync_eq (mem offered : List UInt8) (r : SockerReaderRawStackable I) :
    r.transferToAsync intercept mem offered =
      if offered.take mem.length = [] then { reader := r, mem }
      else
        let shown := offered.take mem.length ++ mem.drop (offered.take mem.length).length
        { reader := { interceptorsIn := (interceptAll intercept shown r.interceptorsIn).1 }
          mem := shown
          recived := offered.take mem.length
          fault := (interceptAll intercept shown r.interceptorsIn).2 } := by
  unfold SockerReaderRawStackable.transferToAsync
  simp only [writeAt, List.take_zero, List.nil_append, Nat.zero_add]
  split_ifs with hnil
  · rw [hnil]
    rfl
  · rfl

theorem shown_eq_iff (mem offered : List UInt8) :
    offered.take mem.length ++ mem.drop (offered.take mem.length).length =
        offered.take mem.length ↔ mem.length ≤ offered.length := by
  rw [List.append_right_eq_self, List.drop_eq_nil_iff, List.length_take]
  omega

/-- The interceptors of the raw reader after an asynchronous transfer. -/
theorem transferToAsync_seen_iff {mem offered before : List UInt8}
    {r : SockerReaderRawStackable I} (hbefore : ∀ i ∈ r.interceptorsIn, i.seen = before) :
    (∀ i ∈ (r.transferToAsync intercept mem offered).reader.interceptorsIn,
        i.seen = before ++ (r.transferToAsync intercept mem offered).recived) ↔
      offered.take mem.length = [] ∨ r.interceptorsIn = [] ∨
        mem.length ≤ offered.length ∧
          Endure intercept (offered.take mem.length) r.interceptorsIn := by
  rw [transferToAsync_eq]
  split_ifs with hnil
  · simpa [hnil] using hbefore
  · rw [interceptAll_seen_iff hbefore hnil, shown_eq_iff, or_iff_right hnil]
    refine or_congr_right (and_congr_right fun hle => ?_)
    rw [(shown_eq_iff mem offered).mpr hle]

theorem endure_append_iff {data : List UInt8} {raw behind : List (SocketReaderInterceptor I)}
    (hne : behind ≠ []) :
    Endure intercept data (raw ++ behind) ↔
      (∀ i ∈ raw, ∃ state, intercept i.state data = .ok state) ∧ Endure intercept data behind := by
  unfold Endure
  rw [List.dropLast_append_of_ne_nil hne]
  exact List.forall_mem_append

/-- What the raw reader shows its interceptors, and behind it the buffered reader, which comes to
its own only when the raw one got through. -/
theorem readers_seen_iff {shown data before before' : List UInt8}
    {raw behind : List (SocketReaderInterceptor I)} (hraw : ∀ i ∈ raw, i.seen = before)
    (hbehind : ∀ i ∈ behind, i.seen = before') (hdata : data ≠ []) :
    ((∀ i ∈ (interceptAll intercept shown raw).1, i.seen = before ++ data) ∧
        ∀ i ∈ (if (interceptAll intercept shown raw).2.isSome then behind
          else (interceptAll intercept data behind).1), i.seen = before' ++ data) ↔
      (raw = [] ∨ shown = data) ∧ Endure intercept data (raw ++ behind) := by
  rw [interceptAll_seen_iff hraw hdata]
  by_cases hnil : raw = []
  · subst hnil
    simp only [interceptAll, Option.isSome_none, Bool.false_eq_true, if_false, true_or, true_and,
      List.nil_append]
    rw [interceptAll_seen_iff hbehind hdata]
    refine ⟨?_, fun h => .inr ⟨rfl, h⟩⟩
    rintro (rfl | ⟨-, h⟩)
    · simp [Endure]
    · exact h
  rw [or_iff_right hnil, or_iff_right hnil, and_assoc]
  refine and_congr_right fun hshown => ?_
  subst hshown
  by_cases hlast : behind = []
  · subst hlast
    simp [interceptAll]
  rw [endure_append_iff hlast, ← interceptAll_fault_iff]
  cases hfault : (interceptAll intercept shown raw).2 with
  | some fault =>
    refine iff_of_false (fun h => ?_) (by simp)
    exact hlast ((missed_iff hbehind hdata).mp h.2)
  | none =>
    have hraw' : Endure intercept shown raw := fun i hi =>
      interceptAll_fault_iff.mp hfault i (List.mem_of_mem_dropLast hi)
    simp only [Option.isSome_none, Bool.false_eq_true, if_false, true_and]
    rw [interceptAll_seen_iff hbehind hdata, or_iff_right hlast, and_iff_right hraw',
      and_iff_right rfl]

theorem getMemory_inv {b : SocketBufferDefault} {start room : ℕ}
    (h : b.getMemory = .ok (start, room)) : start + room ≤ b.buffer.length := by
  unfold SocketBufferDefault.getMemory SocketBufferDefault.memory at h
  split_ifs at h with hrange
  cases h
  omega

namespace InterceptedReaders

variable {s : InterceptedReaders I}

theorem readToBufferAsync_exact_iff {start room : ℕ} (offered : List UInt8)
    (hmemory : s.buffered.buffer.getMemory = .ok (start, room)) {t : Transferred I}
    (ht : s.raw.transferToAsync intercept ((s.buffered.buffer.buffer.drop start).take room)
      offered = t) :
    (s.readToBufferAsync intercept offered).Exact ↔
      (∀ i ∈ t.reader.interceptorsIn, i.seen = s.recived ++ t.recived) ∧
        ∀ i ∈ (if t.fault.isSome ∨ t.recived = [] then s.buffered.interceptorsIn
          else (interceptAll intercept (t.mem.take t.recived.length)
            s.buffered.interceptorsIn).1), i.seen = s.readed ++ t.recived := by
  unfold readToBufferAsync
  rw [hmemory]
  dsimp only
  rw [ht]
  split_ifs <;> rfl

theorem Exact.readToBufferAsync_iff (h : s.Exact) (offered : List UInt8) :
    (s.readToBufferAsync intercept offered).Exact ↔ s.ReadShowsAll intercept offered := by
  unfold ReadShowsAll
  cases hmemory : s.buffered.buffer.getMemory with
  | error fault =>
    unfold readToBufferAsync
    rw [hmemory]
    exact iff_of_true h fun _ _ h => nomatch h
  | ok part =>
    obtain ⟨start, room⟩ := part
    rw [readToBufferAsync_exact_iff offered hmemory rfl]
    have hroom : ((s.buffered.buffer.buffer.drop start).take room).length = room := by
      have hfits := getMemory_inv hmemory
      rw [List.length_take, List.length_drop]
      omega
    generalize (s.buffered.buffer.buffer.drop start).take room = mem at hroom
    subst hroom
    have hshows : (∀ start' room',
        Except.ok (ε := Fault) (start, mem.length) = .ok (start', room') →
        ShowsAll intercept room' offered s.raw.interceptorsIn s.buffered.interceptorsIn) ↔
        ShowsAll intercept mem.length offered s.raw.interceptorsIn s.buffered.interceptorsIn := by
      refine ⟨fun hall => hall start _ rfl, fun hone start' room' heq => ?_⟩
      cases heq
      exact hone
    rw [hshows, transferToAsync_eq, ShowsAll]
    by_cases hnil : offered.take mem.length = []
    · rw [if_pos hnil]
      refine iff_of_true ?_ (.inl hnil)
      simpa [Exact] using h
    · rw [if_neg hnil, or_iff_right hnil, ← shown_eq_iff, ← readers_seen_iff h.1 h.2 hnil]
      simp only [hnil, or_false, List.take_left]

/-- The transfers of the raw reader that show nothing. -/
theorem transferTo_cases (array : List UInt8) (offset length : ℕ) (offered : List UInt8)
    (r : SockerReaderRawStackable I) :
    (r.transferTo array offset length offered).reader = r ∧
      (array.length < offset + length ∧
          (r.transferTo array offset length offered).fault.isSome = true ∧
          (r.transferTo array offset length offered).recived = [] ∨
        offset + length ≤ array.length ∧
          (r.transferTo array offset length offered).fault.isSome = false ∧
          (r.transferTo array offset length offered).recived = offered.take length) := by
  unfold SockerReaderRawStackable.transferTo
  split_ifs with hroom
  · exact ⟨rfl, .inl ⟨hroom, rfl, rfl⟩⟩
  · exact ⟨rfl, .inr ⟨Nat.not_lt.mp hroom, rfl, rfl⟩⟩

/-- A reader without interceptors, and one that receives nothing, has shown everything. -/
theorem untouched_iff {data before : List UInt8} {interceptors : List (SocketReaderInterceptor I)}
    (hbefore : ∀ i ∈ interceptors, i.seen = before) :
    (∀ i ∈ interceptors, i.seen = before ++ data) ↔ data = [] ∨ interceptors = [] := by
  by_cases hdata : data = []
  · subst hdata
    simpa using hbefore
  · rw [missed_iff hbefore hdata, or_iff_right hdata]

/-- A call shows what it receives just when the condition holds. -/
theorem Exact.perform_iff (h : s.Exact) (call : TransferCall) :
    (s.perform intercept call).Exact ↔ s.Shows intercept call := by
  cases call with
  | transferToAsync mem offered =>
    refine (and_iff_left h.2).trans ((transferToAsync_seen_iff h.1).trans ?_)
    rw [Shows, ShowsAll, List.append_nil]
    refine or_congr_right ⟨?_, ?_⟩
    · rintro (hnil | ⟨hle, hendure⟩)
      · exact ⟨.inl hnil, by simp [hnil, Endure]⟩
      · exact ⟨.inr hle, hendure⟩
    · rintro ⟨hnil | hle, hendure⟩
      · exact .inl hnil
      · exact .inr ⟨hle, hendure⟩
  | transferTo array offset length offered =>
    obtain ⟨hreader, hcases⟩ := transferTo_cases array offset length offered s.raw
    refine (and_iff_left h.2).trans ?_
    simp only [perform]
    rw [hreader, untouched_iff h.1, Shows]
    rcases hcases with ⟨hroom, -, hrecived⟩ | ⟨hroom, -, hrecived⟩
    · exact iff_of_true (.inl hrecived) fun hle => absurd hle (Nat.not_le.mpr hroom)
    · rw [hrecived]
      exact ⟨fun hshown _ => hshown, fun hshown => hshown hroom⟩
  | readToBufferAsync offered => exact h.readToBufferAsync_iff offered
  | bufferedTransferToAsync size offered =>
    have hrest : ∀ u : InterceptedReaders I,
        (match u.buffered.buffer.transferTo size with
          | .error _ => u
          | .ok (_, buffer) => { u with buffered := { u.buffered with buffer } }).Exact ↔
          u.Exact := by
      intro u
      split <;> rfl
    rw [perform, bufferedTransferToAsync, hrest, Shows]
    split_ifs with hempty
    · rw [h.readToBufferAsync_iff, forall_prop_of_true hempty]
    · exact iff_of_true h fun hzero => absurd hzero hempty
  | bufferedTransferTo array offset length offered =>
    obtain ⟨-, hcases⟩ := transferTo_cases array offset length offered s.raw
    rw [perform, bufferedTransferTo, Shows]
    rcases hcases with ⟨hroom, hfault, -⟩ | ⟨hroom, hfault, hrecived⟩
    · rw [if_pos hfault]
      exact iff_of_true h fun hle => absurd hle (Nat.not_le.mpr hroom)
    · rw [if_neg (by simp [hfault]), forall_prop_of_true hroom, hrecived]
      refine (and_congr (untouched_iff h.1) (untouched_iff h.2)).trans ?_
      exact or_and_left.symm

/-- In every state of a run the interceptors have seen just what was received, if and only if
every call of the run shows what it receives. -/
theorem seesExactly_iff (intercept : I → List UInt8 → Except Fault I) (raw buffered : List I)
    (buffer : SocketBufferDefault) (calls : List TransferCall) :
    (∀ s, Reached (step intercept) (start raw buffered buffer) calls s → s.Exact) ↔
      Along (step intercept) (Shows intercept) (start raw buffered buffer) calls := by
  have hstart : (start raw buffered buffer).Exact := by
    constructor <;> simp [start]
  refine reached_iff_along (I := fun _ => True) (fun s call _ _ => .inl ⟨_, rfl⟩)
    (fun _ _ _ _ _ _ _ => trivial) ?_ trivial hstart
  intro s call t _ hexact hstep
  cases hstep
  exact hexact.perform_iff call

/-- An interceptor that takes everything. -/
def silent : Unit → List UInt8 → Except Fault Unit := fun _ _ => .ok ()

/-- A long transfer and a short one over the same memory. -/
theorem not_seesExactly_short :
    ¬ ∀ s, Reached (step silent) (start [()] [] {})
        [.transferToAsync [0, 0] [1, 2], .transferToAsync [1, 2] [3]] s → s.Exact := by
  rw [seesExactly_iff]
  rintro ⟨-, hsecond⟩
  have hshort : ShowsAll silent 2 [3] [⟨(), [1, 2]⟩] [] := (hsecond _ rfl).1
  rcases hshort with hnil | ⟨hnone | hlong, -⟩
  · cases hnil
  · cases hnone
  · exact absurd hlong (by decide)

end InterceptedReaders

end DecodingProxy.Sockets
