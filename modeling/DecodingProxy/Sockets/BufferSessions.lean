import DecodingProxy.Sockets.SocketBufferDefault

/-!
# Sessions of one socket buffer

The buffer is initialized, written and read in any order, disposed, and used again. Within a
session it is a bounded queue of bytes. `Dispose` gives the array back and keeps `length`, so
what one session left unread is counted in the next one.
-/

namespace DecodingProxy.Sockets
open DecodingProxy.Runtime DecodingProxy.Runs

/-- What is done between `Initilize` and `Dispose`. A write fills as much of the offered memory
as it has bytes for. -/
inductive Transfer
  | write (bytes : List UInt8)
  | transferTo (size : ℕ)
  deriving DecidableEq, Repr

inductive BufferCall
  | initilize (size : ℤ)
  | transfer (transfer : Transfer)
  | dispose
  deriving DecidableEq, Repr

structure Session where
  size : ℤ
  transfers : List Transfer
  deriving DecidableEq, Repr

def Session.calls (session : Session) : List BufferCall :=
  .initilize session.size :: session.transfers.map .transfer ++ [.dispose]

/-- A buffer with the bytes written into it and transferred out of it in its last session. -/
structure BufferSession where
  buffer : SocketBufferDefault := {}
  written : List UInt8 := []
  transferred : List UInt8 := []
  deriving DecidableEq, Repr

namespace BufferSession

def transfer (s : BufferSession) : Transfer → Except Fault BufferSession
  | .write bytes => do
    let (written, buffer) ← s.buffer.fill bytes
    .ok { s with buffer, written := s.written ++ written }
  | .transferTo size => do
    let (bytes, buffer) ← s.buffer.transferTo size
    .ok { s with buffer, transferred := s.transferred ++ bytes }

def step (pool : ArrayPool) (s : BufferSession) : BufferCall → Except Fault BufferSession
  | .initilize size => do
    let buffer ← s.buffer.initilize pool size
    .ok { buffer }
  | .transfer transfer => s.transfer transfer
  | .dispose => do
    let buffer ← s.buffer.dispose
    .ok { s with buffer }

/-- The bytes come out as they went in, and in use the two counters cover the array. -/
structure Consistent (s : BufferSession) : Prop where
  ordered : s.transferred <+: s.written
  covers : s.buffer.isDisposed = false →
    s.buffer.length + s.buffer.leftFree = s.buffer.buffer.length

def RefinesFifo (pool : ArrayPool) (sessions : List Session) : Prop :=
  RunsWell (step pool) Consistent {} (sessions.flatMap Session.calls)

/-- A session begins with a size an array can have, when nothing is left unread. -/
def StartsEmpty (s : BufferSession) : BufferCall → Prop
  | .initilize size => 0 < size ∧ size ≤ arrayMaxLength ∧ s.buffer.length = 0
  | _ => True

instance (s : BufferSession) (a : BufferCall) : Decidable (s.StartsEmpty a) := by
  cases a <;> unfold StartsEmpty <;> infer_instance

/-- `Initilize` and `Dispose` alternate, and transfers stand between them. -/
def InTurn (s : BufferSession) : BufferCall → Prop
  | .initilize _ => s.buffer.isDisposed = true
  | _ => s.buffer.isDisposed = false

/-- In use, what was written is what was transferred and what is in the buffer. -/
def Sound (s : BufferSession) : Prop :=
  (∃ content, s.buffer.Holds content ∧ s.written = s.transferred ++ content) ∨
    s.buffer.isDisposed = true ∧ s.transferred <+: s.written

variable {pool : ArrayPool} {s t : BufferSession}

theorem Sound.consistent (h : s.Sound) : s.Consistent := by
  rcases h with ⟨content, hholds, hwritten⟩ | ⟨hdisposed, hordered⟩
  · refine ⟨⟨content, hwritten.symm⟩, fun _ => ?_⟩
    rw [hholds.length, hholds.leftFree]
    omega
  · exact ⟨hordered, fun hused => absurd (hdisposed.symm.trans hused) (by decide)⟩

theorem sound_start : Sound {} := .inr ⟨rfl, List.prefix_rfl⟩

theorem transfer_sound {content : List UInt8} (hholds : s.buffer.Holds content)
    (hwritten : s.written = s.transferred ++ content) (a : Transfer) :
    ∃ t, s.transfer a = .ok t ∧ t.Sound := by
  cases a with
  | write bytes =>
    obtain ⟨written, b, hfill, hholds'⟩ := hholds.fill bytes
    refine ⟨_, do_of_ok hfill, .inl ⟨_, hholds', ?_⟩⟩
    simp only [hwritten, List.append_assoc]
  | transferTo size =>
    obtain ⟨b, htransfer, hholds'⟩ := hholds.transferTo size
    refine ⟨_, do_of_ok htransfer, .inl ⟨_, hholds', ?_⟩⟩
    simp only [hwritten, List.append_assoc, List.take_append_drop]

theorem step_sound (h : s.Sound) {a : BufferCall} (hturn : s.InTurn a) (hc : s.StartsEmpty a) :
    ∃ t, step pool s a = .ok t ∧ t.Sound := by
  cases a with
  | initilize size =>
    obtain ⟨hpos, hfits, hzero⟩ := hc
    obtain ⟨b, hinit, -, -, -, hholds⟩ :=
      SocketBufferDefault.initilize_ok pool hpos hfits hturn
    exact ⟨_, do_of_ok hinit, .inl ⟨[], hholds hzero, rfl⟩⟩
  | transfer a =>
    rcases h with ⟨content, hholds, hwritten⟩ | ⟨hdisposed, -⟩
    · exact transfer_sound hholds hwritten a
    · exact absurd (hdisposed.symm.trans hturn) (by decide)
  | dispose =>
    rcases h with ⟨content, hholds, hwritten⟩ | ⟨hdisposed, -⟩
    · obtain ⟨b, hdispose, hdisposed, -⟩ := hholds.dispose
      exact ⟨_, do_of_ok hdispose, .inr ⟨hdisposed, content, hwritten.symm⟩⟩
    · exact absurd (hdisposed.symm.trans hturn) (by decide)

/-- With bytes left over, the counters exceed the array from the start. -/
theorem step_inconsistent {a : BufferCall} (hturn : s.InTurn a) (hc : ¬ s.StartsEmpty a)
    (ht : step pool s a = .ok t) : ¬ t.Consistent := by
  cases a with
  | initilize size =>
    obtain ⟨b, hinit, ht⟩ := do_ok_iff.mp ht
    cases ht
    obtain ⟨hpos, hfits⟩ := SocketBufferDefault.initilize_inv hinit
    obtain ⟨b', hinit', hused, hlength, hfree, -⟩ :=
      SocketBufferDefault.initilize_ok pool hpos hfits hturn
    cases hinit.symm.trans hinit'
    intro hconsistent
    have hcovers := hconsistent.covers hused
    simp only [hlength, hfree] at hcovers
    exact hc ⟨hpos, hfits, by omega⟩
  | transfer a => exact absurd trivial hc
  | dispose => exact absurd trivial hc

/-! ### Sessions take their turns -/

theorem transfer_inUse {a : Transfer} (ht : s.transfer a = .ok t) :
    t.buffer.isDisposed = s.buffer.isDisposed := by
  cases a with
  | write bytes =>
    obtain ⟨⟨written, b⟩, hfill, ht⟩ := do_ok_iff.mp ht
    obtain ⟨⟨start, room⟩, -, hfill⟩ := do_ok_iff.mp hfill
    cases ht
    cases hfill
    rfl
  | transferTo size =>
    obtain ⟨⟨bytes, b⟩, htransfer, ht⟩ := do_ok_iff.mp ht
    cases ht
    unfold SocketBufferDefault.transferTo at htransfer
    split_ifs at htransfer with hlong
    · obtain ⟨⟨start, length⟩, -, htransfer⟩ := do_ok_iff.mp htransfer
      dsimp only at htransfer
      split_ifs at htransfer
      cases htransfer
      rfl
    · obtain ⟨⟨start, length⟩, -, htransfer⟩ := do_ok_iff.mp htransfer
      cases htransfer
      rfl

theorem inTurn_transfers {transfers : List Transfer} {rest : List BufferCall}
    (hrest : ∀ t : BufferSession, t.buffer.isDisposed = false → Along (step pool) InTurn t rest)
    (hused : s.buffer.isDisposed = false) :
    Along (step pool) InTurn s (transfers.map .transfer ++ rest) := by
  induction transfers generalizing s with
  | nil => exact hrest s hused
  | cons a transfers ih => exact ⟨hused, fun t ht => ih ((transfer_inUse ht).trans hused)⟩

theorem inTurn_sessions (sessions : List Session) (hdisposed : s.buffer.isDisposed = true) :
    Along (step pool) InTurn s (sessions.flatMap Session.calls) := by
  induction sessions generalizing s with
  | nil => trivial
  | cons session sessions ih =>
    rw [List.flatMap_cons, Session.calls, List.cons_append, List.cons_append, List.append_assoc]
    refine ⟨hdisposed, fun t ht => inTurn_transfers (fun u hu => ⟨hu, fun v hv => ?_⟩) ?_⟩
    · obtain ⟨b, hdispose, hv⟩ := do_ok_iff.mp hv
      cases hv
      apply ih
      unfold SocketBufferDefault.dispose at hdispose
      rw [if_neg (by simp [hu])] at hdispose
      obtain ⟨_, -, hdispose⟩ := do_ok_iff.mp hdispose
      cases hdispose
      rfl
    · obtain ⟨b, hinit, ht⟩ := do_ok_iff.mp ht
      cases ht
      obtain ⟨hpos, hfits⟩ := SocketBufferDefault.initilize_inv hinit
      obtain ⟨b', hinit', hused, -⟩ := SocketBufferDefault.initilize_ok pool hpos hfits hdisposed
      cases hinit.symm.trans hinit'
      exact hused

theorem refinesFifo_iff (pool : ArrayPool) (sessions : List Session) :
    RefinesFifo pool sessions ↔
      Along (step pool) StartsEmpty {} (sessions.flatMap Session.calls) :=
  runsWell_iff_along (fun _ h => h.consistent) (fun _ _ h hturn hc => step_sound h hturn hc)
    (fun _ _ _ hturn hc _ ht => step_inconsistent hturn hc ht) sound_start
    (inTurn_sessions sessions rfl)

/-- A byte that the first session does not read. -/
theorem not_refinesFifo_unread :
    ¬ RefinesFifo .zeroed [⟨1, [.write [0x2A]]⟩, ⟨1, []⟩] := by
  rw [refinesFifo_iff]
  decide +kernel

end BufferSession

end DecodingProxy.Sockets
