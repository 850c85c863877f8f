import DecodingProxy.Cryptography.RecordExtraction

/-!
# `TlsHandshakeReadOperation`: one record out of its chunks

The length field is looked up at positions 3 and 4 of the chunk at hand, not of what has
been collected. So a record is reassembled when the first chunk that is long enough to
be looked at comes before five bytes are there and shows the length at these positions.
-/

namespace DecodingProxy.Cryptography
open DecodingProxy.Arrays DecodingProxy.Runs DecodingProxy.Runtime

/-- `BufferReader.ToUshort`. -/
def toUshort (v1 v2 : UInt8) : ℕ := 256 * v1.toNat + v2.toNat

structure TlsHandshakeReadOperation where
  buffer : List UInt8 := List.replicate 8092 0
  offset : ℕ := 0
  lengthLeftToCopy : ℕ := 0
  handshakeLength : ℕ := 0
  /-- Whether the result of `tcs` is set. -/
  tcs : Option Bool := none
  isDisposed : Bool := true
  deriving DecidableEq, Repr

namespace TlsHandshakeReadOperation

def initilize (op : TlsHandshakeReadOperation) : Except Fault TlsHandshakeReadOperation :=
  if op.isDisposed then .ok { op with isDisposed := false, tcs := some false }
  else .error (.thrown .objectDisposed "Object must be disposed before use")

/-- `mem.CopyTo(new Memory<byte>(buffer, offset, mem.Length))`, and `offset` moves on. -/
def copy (mem : List UInt8) (op : TlsHandshakeReadOperation) :
    Except Fault TlsHandshakeReadOperation :=
  if op.buffer.length < op.offset + mem.length then .error (.raised .argumentOutOfRange)
  else .ok { op with
    buffer := writeAt op.buffer op.offset mem
    offset := op.offset + mem.length }

def setResult (op : TlsHandshakeReadOperation) : Except Fault TlsHandshakeReadOperation :=
  match op.tcs with
  | none => .error (.raised .nullReference)
  | some true => .error (.raised .invalidOperation)
  | some false => .ok { op with tcs := some true }

/-- The part of `AddDataWithCheck` that knows how much is left to copy. -/
def collect (mem : List UInt8) (op : TlsHandshakeReadOperation) :
    Except Fault (TlsHandshakeReadOperation × Bool) := do
  let toCopy := min mem.length op.lengthLeftToCopy
  let op ← { op with lengthLeftToCopy := op.lengthLeftToCopy - toCopy }.copy (mem.take toCopy)
  if op.lengthLeftToCopy = 0 ∧ 0 < op.offset then do
    let op ← op.setResult
    .ok (op, true)
  else .ok (op, false)

def addDataWithCheck (mem : List UInt8) (op : TlsHandshakeReadOperation) :
    Except Fault (TlsHandshakeReadOperation × Bool) :=
  if op.offset < 5 then
    match mem with
    | _ :: _ :: _ :: l0 :: l1 :: _ =>
      { op with
        handshakeLength := toUshort l0 l1
        lengthLeftToCopy := 5 + toUshort l0 l1 - op.offset }.collect mem
    | _ => do
      let op ← op.copy mem
      .ok (op, false)
  else op.collect mem

def getFrameAsMemory (op : TlsHandshakeReadOperation) : List UInt8 := op.buffer.take op.offset

/-- The answers to the chunks, one after the other. -/
def addAll : List (List UInt8) → TlsHandshakeReadOperation →
    Except Fault (TlsHandshakeReadOperation × List Bool)
  | [], op => .ok (op, [])
  | mem :: more, op => do
    let (op, answer) ← op.addDataWithCheck mem
    let (op, answers) ← addAll more op
    .ok (op, answer :: answers)

/-- Ready for a record, whatever the buffer holds from earlier use. -/
structure Ready (op : TlsHandshakeReadOperation) : Prop where
  room : op.buffer.length = 8092
  offset : op.offset = 0
  lengthLeftToCopy : op.lengthLeftToCopy = 0
  tcs : op.tcs = some false

/-- `false` for every chunk but the last. -/
def expected (chunks : List (List UInt8)) : List Bool := chunks.dropLast.map (fun _ => false) ++ [true]

/-- The chunk that completes the record is the only one that is answered with `true`, and the
frame is the record. -/
def Reassembles (op : TlsHandshakeReadOperation) (chunks : List (List UInt8))
    (record : List UInt8) : Prop :=
  ∃ op', addAll chunks op = .ok (op', expected chunks) ∧ op'.getFrameAsMemory = record

/-- The length field of a record, looked up in this chunk. -/
def shownLength : List UInt8 → Option ℕ
  | _ :: _ :: _ :: l0 :: l1 :: _ => some (toUshort l0 l1)
  | _ => none

/-- Before five bytes are there a chunk comes that shows the length of the record. -/
def ShowsLength (chunks : List (List UInt8)) (length : ℕ) : Prop :=
  ∃ before chunk after, chunks = before ++ chunk :: after ∧ before.flatten.length < 5 ∧
    shownLength chunk = some length

/-! ### One chunk -/

/-- `taken` is collected so far. -/
structure Holds (taken : List UInt8) (op : TlsHandshakeReadOperation) : Prop where
  room : op.buffer.length = 8092
  offset : op.offset = taken.length
  frame : op.buffer.take op.offset = taken
  tcs : op.tcs = some false

theorem Ready.holds {op : TlsHandshakeReadOperation} (h : op.Ready) : Holds [] op :=
  ⟨h.room, h.offset, by rw [h.offset, List.take_zero], h.tcs⟩

theorem Holds.withLeft {taken : List UInt8} {op : TlsHandshakeReadOperation} (h : Holds taken op)
    (length left : ℕ) :
    Holds taken { op with handshakeLength := length, lengthLeftToCopy := left } :=
  ⟨h.room, h.offset, h.frame, h.tcs⟩

theorem copy_ok {taken mem : List UInt8} {op : TlsHandshakeReadOperation} (h : Holds taken op)
    (hfits : taken.length + mem.length ≤ 8092) :
    ∃ op', op.copy mem = .ok op' ∧ Holds (taken ++ mem) op' ∧
      op'.lengthLeftToCopy = op.lengthLeftToCopy := by
  have hroom : op.offset + mem.length ≤ op.buffer.length := by
    rw [h.offset, h.room]
    exact hfits
  unfold copy
  rw [if_neg (Nat.not_lt.mpr hroom)]
  refine ⟨_, rfl, ⟨?_, ?_, ?_, h.tcs⟩, rfl⟩
  · exact (writeAt_length hroom).trans h.room
  · rw [List.length_append, ← h.offset]
  · rw [← h.frame]
    exact take_writeAt (by omega)

theorem collect_part {taken mem : List UInt8} {op : TlsHandshakeReadOperation}
    (h : Holds taken op) (hfits : taken.length + mem.length ≤ 8092)
    (hshort : mem.length < op.lengthLeftToCopy) :
    ∃ op', op.collect mem = .ok (op', false) ∧ Holds (taken ++ mem) op' ∧
      op'.lengthLeftToCopy = op.lengthLeftToCopy - mem.length := by
  obtain ⟨op', hcopy, hholds, hleft⟩ := copy_ok
    (h.withLeft op.handshakeLength (op.lengthLeftToCopy - mem.length)) hfits
  refine ⟨op', ?_, hholds, hleft⟩
  unfold collect
  dsimp only
  rw [Nat.min_eq_left hshort.le, List.take_length, do_of_ok hcopy, if_neg]
  rw [hleft]
  simp only
  omega

theorem collect_last {taken mem : List UInt8} {op : TlsHandshakeReadOperation}
    (h : Holds taken op) (hfits : taken.length + mem.length ≤ 8092)
    (hlong : op.lengthLeftToCopy ≤ mem.length) (hsome : 0 < taken.length + op.lengthLeftToCopy) :
    ∃ op', op.collect mem = .ok (op', true) ∧
      op'.getFrameAsMemory = taken ++ mem.take op.lengthLeftToCopy := by
  have htake : (mem.take op.lengthLeftToCopy).length = op.lengthLeftToCopy := by
    rw [List.length_take, Nat.min_eq_left hlong]
  obtain ⟨op', hcopy, hholds, hleft⟩ := @copy_ok _ (mem.take op.lengthLeftToCopy) _
    (h.withLeft op.handshakeLength (op.lengthLeftToCopy - op.lengthLeftToCopy)) (by omega)
  have hresult : op'.setResult = .ok { op' with tcs := some true } := by
    unfold setResult
    rw [hholds.tcs]
  refine ⟨{ op' with tcs := some true }, ?_, hholds.frame⟩
  unfold collect
  dsimp only
  rw [Nat.min_eq_right hlong, do_of_ok hcopy, if_pos, do_of_ok hresult]
  rw [hleft, hholds.offset, List.length_append, htake]
  exact ⟨Nat.sub_self _, hsome⟩

theorem addDataWithCheck_later {mem : List UInt8} {op : TlsHandshakeReadOperation}
    (h : ¬ op.offset < 5) : op.addDataWithCheck mem = op.collect mem := by
  unfold addDataWithCheck
  rw [if_neg h]

/-! ### All chunks -/

/-- The chunks behind one that was answered. -/
def thenAll (first : Except Fault (TlsHandshakeReadOperation × Bool)) (more : List (List UInt8)) :
    Except Fault (TlsHandshakeReadOperation × List Bool) := do
  let (op, answer) ← first
  let (op, answers) ← addAll more op
  .ok (op, answer :: answers)

theorem addAll_cons (mem : List UInt8) (more : List (List UInt8)) (op : TlsHandshakeReadOperation) :
    addAll (mem :: more) op = thenAll (op.addDataWithCheck mem) more := rfl

theorem thenAll_ok_iff {op op' : TlsHandshakeReadOperation} {answer : Bool}
    {answers : List Bool} {more : List (List UInt8)} :
    thenAll (.ok (op, answer)) more = .ok (op', answers) ↔
      ∃ rest, addAll more op = .ok (op', rest) ∧ answers = answer :: rest := by
  constructor
  · intro h
    obtain ⟨first, hfirst, h⟩ := do_ok_iff.mp h
    cases hfirst
    obtain ⟨⟨op'', rest⟩, hrest, h⟩ := do_ok_iff.mp h
    cases h
    exact ⟨rest, hrest, rfl⟩
  · rintro ⟨rest, hrest, rfl⟩
    exact do_ok_iff.mpr ⟨_, rfl, do_ok_iff.mpr ⟨_, hrest, rfl⟩⟩

theorem expected_cons {mem : List UInt8} {more : List (List UInt8)} (hmore : more ≠ []) :
    expected (mem :: more) = false :: expected more := by
  cases more with
  | nil => exact absurd rfl hmore
  | cons next more => rfl

theorem collects_iff {taken mem : List UInt8} {more : List (List UInt8)}
    {op : TlsHandshakeReadOperation} (h : Holds taken op) (hne : ∀ c ∈ more, c ≠ [])
    (hfits : taken.length + (mem :: more).flatten.length ≤ 8092)
    (hfive : 5 ≤ taken.length + mem.length) (hsome : 0 < taken.length + op.lengthLeftToCopy) :
    (∃ op', thenAll (op.collect mem) more = .ok (op', expected (mem :: more)) ∧
        op'.getFrameAsMemory = taken ++ (mem :: more).flatten) ↔
      op.lengthLeftToCopy = (mem :: more).flatten.length := by
  induction more generalizing taken mem op with
  | nil =>
    rw [List.flatten_singleton] at hfits ⊢
    rcases Nat.lt_or_ge mem.length op.lengthLeftToCopy with hshort | hlong
    · obtain ⟨op₁, hcollect, -, -⟩ := collect_part h hfits hshort
      rw [hcollect]
      refine ⟨?_, fun heq => by omega⟩
      rintro ⟨op', hall, -⟩
      obtain ⟨rest, -, hanswers⟩ := thenAll_ok_iff.mp hall
      cases hanswers
    · obtain ⟨op₁, hcollect, hframe⟩ := collect_last h hfits hlong hsome
      rw [hcollect]
      constructor
      · rintro ⟨op', hall, hsame⟩
        cases hall
        rw [hframe] at hsame
        have htake := congrArg List.length (List.append_cancel_left hsame)
        rw [List.length_take] at htake
        omega
      · intro heq
        refine ⟨op₁, rfl, ?_⟩
        rw [hframe, heq, List.take_length]
  | cons next more ih =>
    have hnext := List.length_pos_iff.mpr (hne next List.mem_cons_self)
    rw [List.flatten_cons, List.length_append] at hfits ⊢
    rw [expected_cons (List.cons_ne_nil next more)]
    have hcount : (next :: more).flatten.length = next.length + more.flatten.length := by
      rw [List.flatten_cons, List.length_append]
    rcases Nat.lt_or_ge mem.length op.lengthLeftToCopy with hshort | hlong
    · obtain ⟨op₁, hcollect, hholds, hleft⟩ := collect_part h (by omega) hshort
      have hstep : op₁.addDataWithCheck next = op₁.collect next :=
        addDataWithCheck_later (by rw [hholds.offset, List.length_append]; omega)
      have hall := @ih (taken ++ mem) next op₁ hholds (fun c hc => hne c (List.mem_cons_of_mem next hc))
        (by rw [List.length_append]; omega) (by rw [List.length_append]; omega)
        (by rw [List.length_append]; omega)
      rw [hcollect, ← List.append_assoc]
      refine Iff.trans ⟨?_, ?_⟩ (hall.trans (by omega))
      · rintro ⟨op', hrun, hframe⟩
        obtain ⟨rest, hrest, hanswers⟩ := thenAll_ok_iff.mp hrun
        cases hanswers
        rw [addAll_cons, hstep] at hrest
        exact ⟨op', hrest, hframe⟩
      · rintro ⟨op', hrest, hframe⟩
        rw [← hstep, ← addAll_cons] at hrest
        exact ⟨op', thenAll_ok_iff.mpr ⟨_, hrest, rfl⟩, hframe⟩
    · obtain ⟨op₁, hcollect, -⟩ := collect_last h (by omega) hlong hsome
      rw [hcollect]
      refine ⟨?_, fun heq => by omega⟩
      rintro ⟨op', hall, -⟩
      obtain ⟨rest, -, hanswers⟩ := thenAll_ok_iff.mp hall
      cases hanswers

theorem addDataWithCheck_shown {mem : List UInt8} {op : TlsHandshakeReadOperation} {length : ℕ}
    (hoffset : op.offset < 5) (hshown : shownLength mem = some length) :
    op.addDataWithCheck mem =
      { op with
        handshakeLength := length
        lengthLeftToCopy := 5 + length - op.offset }.collect mem ∧ 5 ≤ mem.length := by
  match mem, hshown with
  | b0 :: b1 :: b2 :: l0 :: l1 :: more, hshown =>
    cases hshown
    unfold addDataWithCheck
    rw [if_pos hoffset]
    refine ⟨rfl, ?_⟩
    simp only [List.length_cons]
    omega

theorem addDataWithCheck_short {taken mem : List UInt8} {op : TlsHandshakeReadOperation}
    (h : Holds taken op) (hheader : taken.length < 5) (hshown : shownLength mem = none) :
    ∃ op', op.addDataWithCheck mem = .ok (op', false) ∧ Holds (taken ++ mem) op' ∧
      op'.lengthLeftToCopy = op.lengthLeftToCopy ∧ mem.length < 5 := by
  have hshort : mem.length < 5 := by
    match mem, hshown with
    | [], _ | [_], _ | [_, _], _ | [_, _, _], _ | [_, _, _, _], _ => simp
  obtain ⟨op', hcopy, hholds, hleft⟩ := @copy_ok taken mem op h (by omega)
  refine ⟨op', ?_, hholds, hleft, hshort⟩
  unfold addDataWithCheck
  rw [if_pos (by rw [h.offset]; exact hheader)]
  match mem, hshown with
  | [], _ | [_], _ | [_, _], _ | [_, _, _], _ | [_, _, _, _], _ => exact do_of_ok hcopy

/-- After `taken` bytes of a record. -/
def ShowsLengthAfter (taken : ℕ) (chunks : List (List UInt8)) (length : ℕ) : Prop :=
  ∃ before chunk after, chunks = before ++ chunk :: after ∧
    taken + before.flatten.length < 5 ∧ shownLength chunk = some length

theorem showsLengthAfter_shown {taken length shown : ℕ} {mem : List UInt8}
    {more : List (List UInt8)} (hheader : taken < 5) (hshown : shownLength mem = some shown)
    (hfive : 5 ≤ mem.length) : ShowsLengthAfter taken (mem :: more) length ↔ shown = length := by
  constructor
  · rintro ⟨before, chunk, after, hchunks, hbefore, hchunk⟩
    cases before with
    | nil =>
      cases hchunks
      exact Option.some_inj.mp (hshown.symm.trans hchunk)
    | cons first before =>
      cases hchunks
      rw [List.flatten_cons, List.length_append] at hbefore
      omega
  · rintro rfl
    exact ⟨[], mem, more, rfl, hheader, hshown⟩

theorem showsLengthAfter_short {taken length : ℕ} {mem : List UInt8} {more : List (List UInt8)}
    (hshown : shownLength mem = none) :
    ShowsLengthAfter taken (mem :: more) length ↔
      ShowsLengthAfter (taken + mem.length) more length := by
  constructor
  · rintro ⟨before, chunk, after, hchunks, hbefore, hchunk⟩
    cases before with
    | nil =>
      cases hchunks
      rw [hshown] at hchunk
      cases hchunk
    | cons first before =>
      cases hchunks
      rw [List.flatten_cons, List.length_append, ← Nat.add_assoc] at hbefore
      exact ⟨before, chunk, after, rfl, hbefore, hchunk⟩
  · rintro ⟨before, chunk, after, rfl, hbefore, hchunk⟩
    refine ⟨mem :: before, chunk, after, rfl, ?_, hchunk⟩
    rwa [List.flatten_cons, List.length_append, ← Nat.add_assoc]

theorem reassembles_header {taken : List UInt8} {chunks : List (List UInt8)} {length : ℕ}
    {op : TlsHandshakeReadOperation} (h : Holds taken op) (hheader : taken.length < 5)
    (hleft : op.lengthLeftToCopy = 0) (hne : ∀ c ∈ chunks, c ≠ [])
    (hlength : taken.length + chunks.flatten.length = 5 + length) (hfits : 5 + length ≤ 8092) :
    Reassembles op chunks (taken ++ chunks.flatten) ↔
      ShowsLengthAfter taken.length chunks length := by
  induction chunks generalizing taken op with
  | nil =>
    rw [List.flatten_nil, List.length_nil] at hlength
    omega
  | cons mem more ih =>
    have hmore : ∀ c ∈ more, c ≠ [] := fun c hc => hne c (List.mem_cons_of_mem mem hc)
    cases hshown : shownLength mem with
    | some shown =>
      obtain ⟨hadd, hfive⟩ := addDataWithCheck_shown (by rw [h.offset]; exact hheader) hshown
      rw [showsLengthAfter_shown hheader hshown hfive]
      unfold Reassembles
      rw [addAll_cons, hadd]
      refine (collects_iff (h.withLeft shown (5 + shown - op.offset)) hmore (by omega) (by omega)
        (by simp only [h.offset]; omega)).trans ?_
      simp only [h.offset]
      omega
    | none =>
      obtain ⟨op₁, hadd, hholds, hkept, hshort⟩ := addDataWithCheck_short h hheader hshown
      rw [showsLengthAfter_short hshown]
      have hcount : (mem :: more).flatten.length = mem.length + more.flatten.length := by
        rw [List.flatten_cons, List.length_append]
      have htotal : (taken ++ mem).length = taken.length + mem.length := List.length_append
      have hnext : more ≠ [] → (Reassembles op (mem :: more) (taken ++ (mem :: more).flatten) ↔
          Reassembles op₁ more ((taken ++ mem) ++ more.flatten)) := by
        intro hsome
        unfold Reassembles
        rw [addAll_cons, hadd, expected_cons hsome, List.flatten_cons, List.append_assoc]
        constructor
        · rintro ⟨op', hrun, hframe⟩
          obtain ⟨rest, hrest, hanswers⟩ := thenAll_ok_iff.mp hrun
          cases hanswers
          exact ⟨op', hrest, hframe⟩
        · rintro ⟨op', hrest, hframe⟩
          exact ⟨op', thenAll_ok_iff.mpr ⟨_, hrest, rfl⟩, hframe⟩
      rcases Nat.lt_or_ge (taken.length + mem.length) 5 with hopen | hclosed
      · have hsome : more ≠ [] := by
          rintro rfl
          simp only [List.flatten_nil, List.length_nil] at hcount
          omega
        rw [hnext hsome, ih hholds (by omega) (hkept.trans hleft) hmore (by omega), htotal]
      · -- the header came in short chunks only: the length is never looked up
        have hoffset : ¬ op₁.offset < 5 := by
          rw [hholds.offset, htotal]
          omega
        constructor
        · intro hall
          cases more with
          | nil =>
            obtain ⟨op', hrun, -⟩ := hall
            rw [addAll_cons, hadd] at hrun
            cases hrun
          | cons next more =>
            obtain ⟨op', hrun, hframe⟩ := (hnext (List.cons_ne_nil next more)).mp hall
            have hpos := List.length_pos_iff.mpr (hmore next List.mem_cons_self)
            rw [addAll_cons, addDataWithCheck_later hoffset] at hrun
            have hzero := (collects_iff hholds (fun c hc => hmore c (List.mem_cons_of_mem next hc))
              (by omega) (by omega) (by omega)).mp ⟨op', hrun, hframe⟩
            rw [List.flatten_cons, List.length_append] at hzero
            omega
        · rintro ⟨before, chunk, after, -, hbefore, -⟩
          omega

theorem ready_initilize {op : TlsHandshakeReadOperation}
    (h : initilize {} = .ok op) : op.Ready := by
  cases h
  exact ⟨List.length_replicate, rfl, rfl, rfl⟩

theorem reassembles_iff {op : TlsHandshakeReadOperation} (h : op.Ready) {record : List UInt8}
    (hrecord : IsRecord record) (hfits : record.length ≤ 8092) {chunks : List (List UInt8)}
    (split : chunks.flatten = record) (nonempty : ∀ c ∈ chunks, c ≠ []) :
    Reassembles op chunks record ↔ ShowsLength chunks (record.length - 5) := by
  have hfive : 5 ≤ record.length := hrecord.five_le
  have hall : op.Reassembles chunks ([] ++ chunks.flatten) ↔
      ShowsLengthAfter ([] : List UInt8).length chunks (record.length - 5) :=
    reassembles_header h.holds (by simp) h.lengthLeftToCopy nonempty
      (by rw [split, List.length_nil]; omega) (by omega)
  rw [split, List.nil_append] at hall
  apply hall.trans
  unfold ShowsLengthAfter ShowsLength
  simp only [List.length_nil, Nat.zero_add]

/-- A record with two bytes of payload. -/
def smallRecord : List UInt8 := [0x16, 3, 3, 0, 2, 1, 0]

theorem isRecord_small : IsRecord smallRecord := ⟨0x16, 3, 3, 0, 2, [1, 0], rfl, rfl⟩

/-- An operation as `Initilize` leaves a new one. -/
def started : TlsHandshakeReadOperation := { isDisposed := false, tcs := some false }

theorem ready_started : started.Ready := ⟨List.length_replicate, rfl, rfl, rfl⟩

theorem reassembles_iff_small :
    Reassembles started [smallRecord.take 5, smallRecord.drop 5] smallRecord ↔
      ShowsLength [smallRecord.take 5, smallRecord.drop 5] (smallRecord.length - 5) :=
  reassembles_iff ready_started isRecord_small (by decide) (by decide) (by decide)

/-- The first chunk is one byte, and the second one shows other bytes as the length. -/
theorem not_reassembles_one_byte :
    ¬ Reassembles started [smallRecord.take 1, smallRecord.drop 1] smallRecord := by
  intro h
  have hshows : ShowsLengthAfter 0 [smallRecord.take 1, smallRecord.drop 1] 2 :=
    (reassembles_header ready_started.holds (by decide) rfl (by decide) rfl (by decide)).mp h
  have hsecond : shownLength (smallRecord.drop 1) = some (toUshort 2 1) := rfl
  rw [showsLengthAfter_short rfl, showsLengthAfter_shown (by decide) hsecond (by decide)] at hshows
  exact absurd hshows (by decide)

end TlsHandshakeReadOperation

end DecodingProxy.Cryptography
