import DecodingProxy.Runtime.Dictionary
import DecodingProxy.Sockets.SocketReader

/-!
# `SocketWrap`

A wrap is initialised, wrapped around a socket, given modifiers that add readers and writers, and
disposed. `Dispose` ends with the raw reader and the raw writer, which have no source to give
anything to.
-/

namespace DecodingProxy.Sockets
open DecodingProxy.Runtime DecodingProxy.Runs

/-! ### Writers -/

inductive WriterId
  /-- The `SocketWriterRaw` of the wrap. -/
  | raw
  | writer (n : ℕ)
  deriving DecidableEq, Repr

structure SocketWriter where
  isDisposed : Bool := true
  source : Option WriterId := none
  destination : Option WriterId := none
  binds : List ConsumerId := []
  deriving DecidableEq, Repr

structure WrapWriters where
  writers : WriterId → SocketWriter := fun _ => {}
  writer : Option WriterId := some .raw
  consumers : ConsumerId → Option WriterId := fun _ => none

namespace WrapWriters

def set (w : WriterId) (writer : SocketWriter) (s : WrapWriters) : WrapWriters :=
  { s with writers := Function.update s.writers w writer }

/-- `SocketWrap.SetWriter`. -/
def setWriter (writer : Option WriterId) (s : WrapWriters) : WrapWriters := { s with writer }

def initilize (w : WriterId) (s : WrapWriters) : Except Fault WrapWriters :=
  if (s.writers w).isDisposed = false then .error WrapReaders.exMustBeDisposed
  else
    let s := s.set w { s.writers w with isDisposed := false }
    if w = .raw then .ok s
    else
      match s.writer with
      | none => .error (.raised .nullReference)
      | some source =>
        let s := s.set w { s.writers w with source := some source }
        .ok (s.set source { s.writers source with destination := some w })

def dispose (w : WriterId) (s : WrapWriters) : Except Fault WrapWriters :=
  let s := { s with
    consumers := fun c => if c ∈ (s.writers w).binds then (s.writers w).source else s.consumers c }
  let s := s.set w { s.writers w with binds := [] }
  if (s.writers w).isDisposed then .error WrapReaders.exAlreadyDisposed
  else
    let s := s.set w { s.writers w with isDisposed := true }
    match (s.writers w).source with
    | none => .error (.raised .nullReference)
    | some source =>
      let s := s.set source { s.writers source with destination := none }
      .ok (s.set w { s.writers w with source := none })

end WrapWriters

/-! ### The wrap and its modifiers -/

/-- The classes of the source that derive from `SocketWrapModifier` and are not abstract. -/
inductive ModifierType
  | readerDefault
  | writerDefault
  | bufferDefault
  | stream
  | readerPiped
  | http2ReaderPiped
  | http3
  | http2Tls
  | httpTls
  | http11Tls
  deriving DecidableEq, Repr

structure Modifier where
  type : ModifierType
  /-- The reader and the writer that it works with are the `n`-th ones. -/
  n : ℕ
  /-- `SetStream` is called on the reader of a `SocketModifierTls`. -/
  sslStream : Bool := false
  deriving DecidableEq, Repr

inductive EConnectionState
  | none
  | active
  | stalled
  | disposed
  deriving DecidableEq, Repr

structure SocketWrap where
  isDisposed : Bool := true
  generation : ℕ := 0
  deaths : ℕ := 0
  socket : Option ℕ := none
  title : Option String := none
  key : ℕ := 0
  life : ℤ := 0
  state : EConnectionState := .none
  flags : ℤ := 0
  pool : Option ℕ := none
  modifiers : Dictionary ModifierType Modifier := ∅
  readers : WrapReaders := {}
  writers : WrapWriters := {}

namespace SocketWrap

def exBeforeReuse : Fault := .thrown .objectDisposed "Object must be disposed before reuse"

def initilizeReader (n : ℕ) (s : SocketWrap) : Except Fault SocketWrap := do
  let readers ← s.readers.initilize (.reader n)
  .ok { s with readers }

def initilizeWriter (n : ℕ) (s : SocketWrap) : Except Fault SocketWrap := do
  let writers ← s.writers.initilize (.writer n)
  .ok { s with writers }

def disposeReader (r : ReaderId) (s : SocketWrap) : Except Fault SocketWrap := do
  let readers ← s.readers.dispose r
  .ok { s with readers }

def disposeWriter (w : WriterId) (s : SocketWrap) : Except Fault SocketWrap := do
  let writers ← s.writers.dispose w
  .ok { s with writers }

/-- `wrap.Reader is IGetPipeReader`: of the readers, only a `SocketReaderPiped` is one. -/
def readerIsPiped (s : SocketWrap) : Bool :=
  match AList.lookup .readerPiped s.modifiers with
  | none => false
  | some m => s.readers.reader = some (.reader m.n)

/-- `Initilize` of the modifier, after that of `SocketWrapModifier`. -/
def initilizeModifier (m : Modifier) (s : SocketWrap) : Except Fault SocketWrap :=
  match m.type with
  | .readerDefault | .bufferDefault | .readerPiped | .http3 | .http2Tls => s.initilizeReader m.n
  | .writerDefault => do
    let s ← s.initilizeWriter m.n
    .ok { s with writers := s.writers.setWriter (some (.writer m.n)) }
  | .stream => do
    let s ← s.initilizeReader m.n
    s.initilizeWriter m.n
  | .http2ReaderPiped => if s.readerIsPiped then .ok s else .error (.raised .notImplemented)
  | .httpTls | .http11Tls => .ok s

/-- Most modifiers leave their reader or writer as it is. -/
def disposeModifier (s : SocketWrap) (m : Modifier) : Except Fault SocketWrap :=
  match m.type with
  | .stream => do
    let s ← s.disposeReader (.reader m.n)
    s.disposeWriter (.writer m.n)
  | .http3 | .http2Tls => do
    let s ← s.disposeReader (.reader m.n)
    if m.sslStream then .ok s else .error (.raised .nullReference)
  | .readerDefault | .writerDefault | .bufferDefault | .readerPiped | .http2ReaderPiped | .httpTls
  | .http11Tls => .ok s

def addModifier (s : SocketWrap) (m : Modifier) : Except Fault SocketWrap := do
  let modifiers ← s.modifiers.add m.type m
  initilizeModifier m { s with modifiers }

def initilize (title : String) (s : SocketWrap) : Except Fault SocketWrap :=
  if s.isDisposed = false then .error exBeforeReuse
  else .ok { s with title := some title, generation := s.generation + 1, isDisposed := false }

/-- With a default reader or writer, the number of the one that the pool gives. -/
def wrap (socket : ℕ) (defaultReader defaultWriter : Option ℕ) (s : SocketWrap) :
    Except Fault SocketWrap := do
  let readers ← s.readers.initilize .raw
  let writers ← s.writers.initilize .raw
  let s := { s with socket := some socket, readers, writers }
  let s ← defaultReader.elim (.ok s) fun n => s.addModifier ⟨.readerDefault, n, false⟩
  defaultWriter.elim (.ok s) fun n => s.addModifier ⟨.writerDefault, n, false⟩

def dispose (s : SocketWrap) : Except Fault SocketWrap :=
  if s.isDisposed then .error WrapReaders.exAlreadyDisposed
  else if s.socket = none then .error (.raised .nullReference)
  else do
    let s := { s with
      isDisposed := true
      deaths := s.deaths + 1
      socket := none
      state := .disposed
      flags := -1
      pool := none
      key := 0
      title := none
      life := 0 }
    let s ← s.modifiers.values.foldlM disposeModifier s
    let s := { s with modifiers := ∅ }
    let s ← s.disposeReader .raw
    s.disposeWriter .raw

/-! ### Lives of a wrap -/

/-- What is done to a wrap before its `Dispose`. -/
structure Life where
  title : String
  socket : ℕ
  defaultReader : Option ℕ := some 0
  defaultWriter : Option ℕ := some 0
  modifiers : List Modifier := []
  deriving DecidableEq, Repr

def begin (life : Life) (s : SocketWrap) : Except Fault SocketWrap := do
  let s ← s.initilize life.title
  let s ← s.wrap life.socket life.defaultReader life.defaultWriter
  life.modifiers.foldlM addModifier s

/-- Reader and writer are the raw ones, and no destination is linked to them. -/
structure IsRaw (s : SocketWrap) : Prop where
  reader : s.readers.reader = some .raw
  writer : s.writers.writer = some .raw
  readerEnd : s.readers.destination .raw = none
  writerEnd : (s.writers.writers .raw).destination = none

/-- One after the other, the lives that a new wrap can begin are begun, and each one ends with a
`Dispose` that returns and leaves a raw wrap. -/
def Outlives (s : SocketWrap) : List Life → Prop
  | [] => True
  | life :: lives => (∃ t, begin life {} = .ok t) →
    ∃ t, s.begin life = .ok t ∧ ∃ u, t.dispose = .ok u ∧ u.IsRaw ∧ Outlives u lives

end SocketWrap

/-! ### The raw reader has no source -/

namespace WrapReaders

variable {s t : WrapReaders} {r : ReaderId}

/-- Nothing comes before the raw reader. -/
structure RawFirst (s : WrapReaders) : Prop where
  source : s.source .raw = none
  destination : ∀ x, s.destination x ≠ some .raw

theorem rawFirst_new : RawFirst {} := ⟨rfl, fun _ => nofun⟩

theorem RawFirst.set {reader : SocketReader} (h : s.RawFirst)
    (hsource : r = .raw → reader.source = none) (hdestination : reader.destination ≠ some .raw) :
    (s.set r reader).RawFirst := by
  constructor
  · by_cases hr : .raw = r
    · subst hr
      simpa [WrapReaders.source] using hsource rfl
    · simpa [WrapReaders.source, set_of_ne hr] using h.source
  · intro x
    by_cases hx : x = r
    · subst hx
      simpa [WrapReaders.destination] using hdestination
    · simpa [WrapReaders.destination, set_of_ne hx] using h.destination x

theorem RawFirst.source_none (h : s.RawFirst) (hr : r = .raw) : (s.readers r).source = none := by
  rw [hr]
  exact h.source

theorem RawFirst.setSource (h : s.RawFirst) (hr : r ≠ .raw) (source : Option ReaderId) :
    (s.setSource r source).RawFirst :=
  h.set (fun hraw => absurd hraw hr) (h.destination r)

theorem RawFirst.setDestination {destination : Option ReaderId} (h : s.RawFirst)
    (hd : destination ≠ some .raw) : (s.setDestination r destination).RawFirst :=
  h.set h.source_none hd

theorem RawFirst.setReader (h : s.RawFirst) (reader : Option ReaderId) :
    (s.setReader reader).RawFirst :=
  ⟨h.source, h.destination⟩

theorem RawFirst.initilize (h : s.RawFirst) (ht : s.initilize r = .ok t) : t.RawFirst := by
  unfold WrapReaders.initilize at ht
  split at ht
  · cases ht
  have hlive : (s.set r { s.readers r with isDisposed := false, wrapped := true }).RawFirst :=
    h.set h.source_none (h.destination r)
  dsimp only at ht
  split at ht
  · cases ht
    exact hlive
  rename_i hraw
  split at ht
  · cases ht
  have hsome : some r ≠ some ReaderId.raw := fun h => hraw (Option.some.inj h)
  rename_i source _
  have hbehind := hlive.setSource hraw (some source)
  split at ht
  case h_1 destination hd =>
    cases ht
    have hne : destination ≠ .raw := by
      rintro rfl
      exact hbehind.destination source hd
    refine RawFirst.setDestination (RawFirst.setSource (hbehind.setDestination ?_) hne _) hsome
    exact fun h => hne (Option.some.inj h)
  case h_2 =>
    cases ht
    exact (hbehind.setReader _).setDestination hsome

theorem RawFirst.handOver (h : s.RawFirst) : (s.handOver r).RawFirst :=
  RawFirst.set ⟨h.source, h.destination⟩ h.source_none (h.destination r)

theorem RawFirst.unlink (h : s.RawFirst) (ht : s.unlink r = .ok t) : t.RawFirst := by
  unfold WrapReaders.unlink at ht
  split at ht
  case h_1 destination hd =>
    have hne : destination ≠ .raw := by
      rintro rfl
      exact h.destination r hd
    have hlinked := h.setSource hne (s.source r)
    dsimp only at ht
    split at ht
    · cases ht
    · cases ht
      exact hlinked.setDestination (hlinked.destination r)
  case h_2 =>
    split at ht
    · cases ht
    dsimp only at ht
    split at ht
    · cases ht
    · cases ht
      exact (h.setReader _).setDestination nofun

theorem RawFirst.dispose (h : s.RawFirst) (ht : s.dispose r = .ok t) : t.RawFirst := by
  obtain ⟨u, hu, ht⟩ := do_ok_iff.mp ht
  split at ht
  · cases ht
  · cases ht
    exact (h.handOver.unlink hu).set (fun _ => rfl) nofun

/-- The raw reader has no neighbour to link to another one, nor one to show instead of it. -/
theorem RawFirst.dispose_raw (h : s.RawFirst) (ht : s.dispose .raw = .ok t) : False := by
  obtain ⟨u, hu, -⟩ := do_ok_iff.mp ht
  have hsource : (s.handOver .raw).source .raw = none := h.handOver.source
  unfold WrapReaders.unlink at hu
  split at hu
  case h_1 destination hd =>
    have hne : .raw ≠ destination := by
      rintro rfl
      exact h.handOver.destination .raw hd
    have hraw : ((s.handOver .raw).setSource destination ((s.handOver .raw).source .raw)).source
        .raw = none := by
      rw [WrapReaders.source, WrapReaders.setSource, set_of_ne hne]
      exact hsource
    dsimp only at hu
    rw [hraw] at hu
    cases hu
  case h_2 =>
    split at hu
    · cases hu
    · dsimp only at hu
      rw [show ((s.handOver .raw).setReader ((s.handOver .raw).source .raw)).source .raw = none
        from hsource] at hu
      cases hu

end WrapReaders

namespace SocketWrap

variable {s t : SocketWrap}

def RawFirst (s : SocketWrap) : Prop := s.readers.RawFirst

theorem RawFirst.initilizeReader {n : ℕ} (h : s.RawFirst) (ht : s.initilizeReader n = .ok t) :
    t.RawFirst := by
  obtain ⟨readers, hreaders, ht⟩ := do_ok_iff.mp ht
  cases ht
  exact h.initilize hreaders

theorem RawFirst.initilizeWriter {n : ℕ} (h : s.RawFirst) (ht : s.initilizeWriter n = .ok t) :
    t.RawFirst := by
  obtain ⟨writers, -, ht⟩ := do_ok_iff.mp ht
  cases ht
  exact h

theorem RawFirst.disposeReader {r : ReaderId} (h : s.RawFirst) (ht : s.disposeReader r = .ok t) :
    t.RawFirst := by
  obtain ⟨readers, hreaders, ht⟩ := do_ok_iff.mp ht
  cases ht
  exact h.dispose hreaders

theorem RawFirst.disposeWriter {w : WriterId} (h : s.RawFirst) (ht : s.disposeWriter w = .ok t) :
    t.RawFirst := by
  obtain ⟨writers, -, ht⟩ := do_ok_iff.mp ht
  cases ht
  exact h

theorem RawFirst.initilizeModifier (h : s.RawFirst) {m : Modifier}
    (ht : initilizeModifier m s = .ok t) : t.RawFirst := by
  rcases m with ⟨type, n, sslStream⟩
  cases type with
  | readerDefault | bufferDefault | readerPiped | http3 | http2Tls => exact h.initilizeReader ht
  | writerDefault =>
    obtain ⟨u, hu, ht⟩ := do_ok_iff.mp ht
    cases ht
    have hwriter : u.RawFirst := h.initilizeWriter hu
    exact hwriter
  | stream =>
    obtain ⟨u, hu, ht⟩ := do_ok_iff.mp ht
    exact (h.initilizeReader hu).initilizeWriter ht
  | http2ReaderPiped =>
    simp only [SocketWrap.initilizeModifier] at ht
    split at ht
    · cases ht
      exact h
    · cases ht
  | httpTls | http11Tls =>
    cases ht
    exact h

theorem RawFirst.addModifier (h : s.RawFirst) {m : Modifier} (ht : s.addModifier m = .ok t) :
    t.RawFirst := by
  obtain ⟨modifiers, -, ht⟩ := do_ok_iff.mp ht
  have hadded : RawFirst { s with modifiers } := h
  exact hadded.initilizeModifier ht

theorem RawFirst.disposeModifier (h : s.RawFirst) {m : Modifier}
    (ht : s.disposeModifier m = .ok t) : t.RawFirst := by
  rcases m with ⟨type, n, sslStream⟩
  cases type with
  | stream =>
    obtain ⟨u, hu, ht⟩ := do_ok_iff.mp ht
    exact (h.disposeReader hu).disposeWriter ht
  | http3 | http2Tls =>
    obtain ⟨u, hu, ht⟩ := do_ok_iff.mp ht
    split at ht
    · cases ht
      exact h.disposeReader hu
    · cases ht
  | readerDefault | writerDefault | bufferDefault | readerPiped | http2ReaderPiped | httpTls
  | http11Tls =>
    cases ht
    exact h

theorem RawFirst.foldlM {f : SocketWrap → Modifier → Except Fault SocketWrap}
    (hf : ∀ m s t, RawFirst s → f s m = .ok t → RawFirst t)
    (h : s.RawFirst) {ms : List Modifier} (ht : ms.foldlM f s = .ok t) : t.RawFirst := by
  induction ms generalizing s with
  | nil =>
    cases ht
    exact h
  | cons m ms ih =>
    rw [List.foldlM_cons] at ht
    obtain ⟨u, hu, ht⟩ := do_ok_iff.mp ht
    exact ih (hf m s u h hu) ht

theorem RawFirst.wrap {socket : ℕ} {defaultReader defaultWriter : Option ℕ} (h : s.RawFirst)
    (ht : s.wrap socket defaultReader defaultWriter = .ok t) : t.RawFirst := by
  obtain ⟨readers, hreaders, ht⟩ := do_ok_iff.mp ht
  obtain ⟨writers, -, ht⟩ := do_ok_iff.mp ht
  obtain ⟨u, hu, ht⟩ := do_ok_iff.mp ht
  have hraw : RawFirst { s with socket := some socket, readers, writers } := h.initilize hreaders
  have hu : u.RawFirst := by
    cases defaultReader with
    | none =>
      cases hu
      exact hraw
    | some n => exact hraw.addModifier hu
  cases defaultWriter with
  | none =>
    cases ht
    exact hu
  | some n => exact hu.addModifier ht

theorem RawFirst.begin {life : Life} (h : s.RawFirst) (ht : s.begin life = .ok t) : t.RawFirst := by
  obtain ⟨u, hu, ht⟩ := do_ok_iff.mp ht
  obtain ⟨v, hv, ht⟩ := do_ok_iff.mp ht
  have hu : u.RawFirst := by
    unfold SocketWrap.initilize at hu
    split at hu
    · cases hu
    · cases hu
      exact h
  exact (hu.wrap hv).foldlM (fun _ _ _ h hm => h.addModifier hm) ht

/-- Whatever the modifiers do, the raw reader is disposed in the end. -/
theorem RawFirst.dispose_throws (h : s.RawFirst) : ∃ fault, s.dispose = .error fault := by
  rcases hs : s.dispose with fault | t
  · exact ⟨fault, rfl⟩
  exfalso
  unfold SocketWrap.dispose at hs
  split at hs
  · cases hs
  split at hs
  · cases hs
  obtain ⟨u, hu, hs⟩ := do_ok_iff.mp hs
  have hu : u.RawFirst := by
    refine RawFirst.foldlM (fun _ _ _ h hm => h.disposeModifier hm) ?_ hu
    exact h
  obtain ⟨v, hv, -⟩ := do_ok_iff.mp hs
  obtain ⟨readers, hreaders, -⟩ := do_ok_iff.mp hv
  exact hu.dispose_raw hreaders

/-- A wrap does not outlive its first life. -/
theorem not_outlives {life : Life} {t : SocketWrap} (h : begin life {} = .ok t)
    (lives : List Life) : ¬ Outlives {} (life :: lives) := by
  intro houtlives
  obtain ⟨u, hu, v, hv, -⟩ := houtlives ⟨t, h⟩
  have hraw : RawFirst u := RawFirst.begin (s := {}) WrapReaders.rawFirst_new hu
  obtain ⟨fault, hfault⟩ := hraw.dispose_throws
  rw [hfault] at hv
  cases hv

theorem not_outlives_stream :
    ¬ Outlives {} [⟨"client", 1, some 1, some 1, [⟨.stream, 2, false⟩]⟩] :=
  not_outlives rfl []

theorem not_outlives_bare : ¬ Outlives {} [⟨"client", 1, none, none, []⟩] := by
  intro h
  obtain ⟨t, ht, u, hu, -⟩ := h ⟨_, rfl⟩
  cases ht
  cases hu

end SocketWrap

end DecodingProxy.Sockets
