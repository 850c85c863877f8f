import DecodingProxy.Cryptography.RecordExtraction
import DecodingProxy.Runtime.Memory
import DecodingProxy.Threading.IziSignaler

/-!
# `NodeTlsFramesReader`

The node copies the fragments it takes into frames, one for each TLS record. A frame is begun
with what the fragment has of the record, filled from the next fragments, and enqueued when it is
full.
-/

namespace DecodingProxy.Nodes
open DecodingProxy.Arrays DecodingProxy.Cryptography DecodingProxy.Runs DecodingProxy.Runtime
open DecodingProxy.Threading

inductive EFrameType
  | none
  | unknown
  | tls
  | http11
  | http20
  deriving DecidableEq, Repr

structure DataFrame where
  bytes : Option (List UInt8) := none
  /-- How many bytes from the start of the array `memory` shows. -/
  memory : ℕ := 0
  length : ℕ := 0
  type : EFrameType := .none
  deriving DecidableEq, Repr

namespace DataFrame

def readOnly (f : DataFrame) : List UInt8 := (f.bytes.getD []).take f.memory

def ensureCapacity (pool : ArrayPool) (length : ℕ) (f : DataFrame) : Except Fault DataFrame :=
  let bytes := f.bytes.getD []
  if bytes.length > 0 then
    if bytes.length ≥ length then .ok f
    else do
      let newBuf ← pool.rent length
      let newBuf ← arrayCopy bytes newBuf length
      ArrayPool.giveBack bytes
      .ok { f with bytes := some newBuf, memory := length }
  else do
    let bytes ← pool.rent length
    .ok { f with bytes := some bytes }

/-- Nothing gives a frame back to the pool of frames, so the frame is a new one. -/
def allocate (pool : ArrayPool) (length : ℕ) : Except Fault DataFrame :=
  ensureCapacity pool length {}

def copyAppend (data : List UInt8) (f : DataFrame) : Except Fault DataFrame :=
  let bytes := f.bytes.getD []
  if bytes.length < f.length + data.length then .error (.raised .argumentOutOfRange)
  else
    .ok { f with
      bytes := f.bytes.map fun bytes => writeAt bytes f.length data
      memory := f.length + data.length
      length := f.length + data.length }

def copySet (data : List UInt8) (f : DataFrame) : Except Fault DataFrame :=
  let bytes := f.bytes.getD []
  if bytes.length < data.length then .error (.raised .argumentOutOfRange)
  else
    .ok { f with
      bytes := f.bytes.map fun bytes => writeAt bytes 0 data
      memory := data.length
      length := data.length }

/-- The frame shows `content`, and has room for `total` bytes. -/
structure Shows (content : List UInt8) (total : ℕ) (f : DataFrame) : Prop where
  readOnly : f.readOnly = content
  length : f.length = content.length
  memory : f.memory = content.length
  room : total ≤ (f.bytes.getD []).length

variable {f : DataFrame} {content data : List UInt8} {total : ℕ}

theorem allocate_ok (pool : ArrayPool) (h : total ≤ arrayMaxLength) :
    ∃ f, allocate pool total = .ok f ∧ f.Shows [] total := by
  have hrent := pool.rent_ok h
  refine ⟨{ bytes := some (pool.contents total) }, do_of_ok hrent, rfl, rfl, rfl, ?_⟩
  change total ≤ (pool.contents total).length
  rw [pool.contents_length]
  exact le_rentLength total

theorem Shows.copyAppend (h : f.Shows content total)
    (hroom : content.length + data.length ≤ total) :
    ∃ g, f.copyAppend data = .ok g ∧ g.Shows (content ++ data) total := by
  have hlength := h.length
  have hfits : f.length + data.length ≤ (f.bytes.getD []).length := by
    have hle := h.room
    omega
  refine ⟨_, if_neg (by omega), ?_, ?_, ?_, ?_⟩
  · have hshown := h.readOnly
    rw [DataFrame.readOnly, h.memory, ← hlength] at hshown
    cases hbytes : f.bytes with
    | none =>
      rw [hbytes] at hfits hshown
      obtain ⟨-, rfl⟩ : f.length = 0 ∧ data = [] := by
        rw [← List.length_eq_zero_iff]
        simp only [Option.getD_none, List.length_nil] at hfits
        omega
      simpa [DataFrame.readOnly] using hshown
    | some bytes =>
      rw [hbytes] at hfits hshown
      rw [← hshown]
      exact take_writeAt (by simp only [Option.getD_some] at hfits ⊢; omega)
  · simp [hlength]
  · simp [hlength]
  · have hle := h.room
    cases hbytes : f.bytes with
    | none => simpa [hbytes] using hle
    | some bytes =>
      rw [hbytes] at hfits hle
      simp only [Option.getD_some, Option.map_some] at hfits hle ⊢
      rwa [writeAt_length hfits]

/-- The first bytes of a frame are written as those of an empty one. -/
theorem Shows.copySet (h : f.Shows [] total) (hroom : data.length ≤ total) :
    ∃ g, f.copySet data = .ok g ∧ g.Shows data total := by
  have happend : ∃ g, f.copyAppend data = .ok g ∧ g.Shows ([] ++ data) total :=
    h.copyAppend (by simpa using hroom)
  have hsame : f.copySet data = f.copyAppend data := by
    have hlength : f.length = 0 := h.length
    simp [DataFrame.copySet, DataFrame.copyAppend, hlength]
  rw [hsame]
  exact happend

end DataFrame

structure NodeTlsFramesReader where
  frames : List DataFrame := []
  signaler : IziSignaler := {}
  currentFrame : Option DataFrame := none
  isFragmented : Bool := false
  lengthLeft : ℤ := 0
  deriving DecidableEq, Repr

namespace NodeTlsFramesReader

/-- The first branch of the loop: the frame of the next record. -/
def beginFrame (pool : ArrayPool) (mem : List UInt8) (n : NodeTlsFramesReader) :
    Except Fault (List UInt8 × DataFrame × NodeTlsFramesReader) := do
  let record ← TlsRecord.toStruct mem
  let totalLength := record.length + sizeRecord
  let currentFrame ← DataFrame.allocate pool totalLength
  let isFragmented := decide (mem.length < totalLength)
  let lengthToCopy := if isFragmented then mem.length else totalLength
  let currentFrame ← { currentFrame with type := .tls }.copySet (mem.take lengthToCopy)
  let lengthLeft := if isFragmented then (totalLength : ℤ) - lengthToCopy else n.lengthLeft
  .ok (mem.drop lengthToCopy, currentFrame, { n with isFragmented, lengthLeft })

/-- The second branch: more of the record that the last fragment ended in. -/
def fillFrame (mem : List UInt8) (currentFrame : DataFrame) (n : NodeTlsFramesReader) :
    Except Fault (List UInt8 × DataFrame × NodeTlsFramesReader) := do
  let lengthToCopy := if n.lengthLeft > mem.length then (mem.length : ℤ) else n.lengthLeft
  let data ← sliceTo mem lengthToCopy
  let currentFrame ← currentFrame.copyAppend data
  let mem ← sliceFrom mem lengthToCopy
  .ok (mem, currentFrame, { n with lengthLeft := n.lengthLeft - lengthToCopy })

def turn (pool : ArrayPool) (mem : List UInt8) (n : NodeTlsFramesReader) :
    Except Fault (List UInt8 × NodeTlsFramesReader) := do
  let (mem, frame, n) ← (match n.currentFrame with
    | none => n.beginFrame pool mem
    | some currentFrame => n.fillFrame mem currentFrame)
  if n.lengthLeft = 0 then do
    let (signaler, _) ← n.signaler.setComplete
    .ok (mem, { n with frames := n.frames ++ [frame], signaler, currentFrame := none })
  else .ok (mem, { n with currentFrame := some frame })

/-- The loop over one fragment, at most `turns` turns of it. -/
def takeFrames (pool : ArrayPool) :
    ℕ → List UInt8 → NodeTlsFramesReader → Except Halt NodeTlsFramesReader
  | 0, _, _ => .error .diverges
  | turns + 1, mem, n =>
    if mem = [] then .ok n
    else
      match n.turn pool mem with
      | .ok (mem, n) => takeFrames pool turns mem n
      | .error fault => .error (.threw fault)

/-- A turn takes at least one byte of the fragment. -/
def takeFrag (pool : ArrayPool) (n : NodeTlsFramesReader) (mem : List UInt8) :
    Except Halt NodeTlsFramesReader :=
  takeFrames pool (mem.length + 1) mem n

/-- `ExecuteAsync` over the fragments that the source gives. -/
def execute (pool : ArrayPool) (frags : List (List UInt8)) : Except Halt NodeTlsFramesReader :=
  run (takeFrag pool) {} frags

/-- The reader takes all fragments, and its frames are the records. -/
def Reassembles (pool : ArrayPool) (s : RecordStream) : Prop :=
  ∃ n, execute pool s.appends = .ok n ∧ n.frames.map DataFrame.readOnly = s.records

/-- The first `n` bytes of the records end between two bytes of a header. -/
def CutsHeader (records : List (List UInt8)) (n : ℕ) : Prop :=
  ∃ before r after, records = before ++ r :: after ∧ before.flatten.length < n ∧
    n < before.flatten.length + sizeRecord

/-- The node has taken the first `n` bytes: all of some records, or also a part of the next one
that has at least its header. -/
inductive Stands (records : List (List UInt8)) (n : NodeTlsFramesReader) : ℕ → Prop
  | between {before after : List (List UInt8)} (split : records = before ++ after)
      (frames : n.frames.map DataFrame.readOnly = before) (awaits : n.signaler.countAwaits = 0)
      (current : n.currentFrame = none) (left : n.lengthLeft = 0) :
      Stands records n before.flatten.length
  | within {before after : List (List UInt8)} {r part : List UInt8} {f : DataFrame}
      (split : records = before ++ r :: after)
      (frames : n.frames.map DataFrame.readOnly = before) (awaits : n.signaler.countAwaits = 0)
      (current : n.currentFrame = some f) (left : n.lengthLeft = r.length - part.length)
      (shows : f.Shows part r.length) (partOf : part <+: r) (header : sizeRecord ≤ part.length)
      (short : part.length < r.length) :
      Stands records n (before.flatten.length + part.length)

variable {pool : ArrayPool} {n : NodeTlsFramesReader} {records : List (List UInt8)} {pos : ℕ}
  {mem : List UInt8}

theorem toStruct_short (h : mem.length < sizeRecord) :
    TlsRecord.toStruct mem = .error (.raised .indexOutOfRange) := by
  match mem with
  | [] | [_] | [_, _] | [_, _, _] | [_, _, _, _] => rfl
  | _ :: _ :: _ :: _ :: _ :: _ =>
    simp only [List.length_cons, sizeRecord] at h
    omega

/-- What the end of a turn does with a full frame. -/
theorem stands_enqueue {m : NodeTlsFramesReader} {before after : List (List UInt8)}
    {r : List UInt8} {f : DataFrame} (split : records = before ++ r :: after)
    (frames : m.frames.map DataFrame.readOnly = before) (awaits : m.signaler.countAwaits = 0)
    (left : m.lengthLeft = 0) (shows : f.readOnly = r) :
    ∃ signaler invoked, m.signaler.setComplete = .ok (signaler, invoked) ∧
      Stands records { m with frames := m.frames ++ [f], signaler, currentFrame := none }
        (before.flatten.length + r.length) := by
  refine ⟨_, false, if_neg (by omega), ?_⟩
  have hpos : before.flatten.length + r.length = (before ++ [r]).flatten.length := by simp
  rw [hpos]
  have hrest : records = before ++ [r] ++ after := by simp [split]
  refine .between hrest ?_ awaits rfl left
  simp [frames, shows]

/-- What a turn comes to on the rest of a fragment. -/
inductive TurnResult (pool : ArrayPool) (records : List (List UInt8)) (n : NodeTlsFramesReader)
    (pos : ℕ) (mem : List UInt8) : Prop
  | takes (k : ℕ) (m : NodeTlsFramesReader) (pos_k : 0 < k) (k_le : k ≤ mem.length)
      (turn : n.turn pool mem = .ok (mem.drop k, m)) (stands : Stands records m (pos + k))
  | throws (fault : Fault) (turn : n.turn pool mem = .error fault)
      (cuts : CutsHeader records (pos + mem.length))

variable (pool n) in
/-- The frame of a record, from a memory that begins as the record does. -/
theorem beginFrame_ok {r : List UInt8} (hr : IsRecord r)
    (hheader : mem.take sizeRecord = r.take sizeRecord) {k : ℕ} (hk : k = min mem.length r.length) :
    ∃ g, g.Shows (mem.take k) r.length ∧
      n.beginFrame pool mem = .ok (mem.drop k, g,
        { n with
          isFragmented := decide (mem.length < r.length)
          lengthLeft := if mem.length < r.length then (r.length : ℤ) - k else n.lengthLeft }) := by
  obtain ⟨header, hstruct, hlength⟩ := hr.toStruct hheader
  have hmax : r.length ≤ arrayMaxLength := by
    have hlt : header.length < 2 ^ 16 := UInt16.toNat_lt _
    have hbound : 2 ^ 16 + sizeRecord ≤ arrayMaxLength := by decide
    omega
  obtain ⟨f, hallocate, hempty⟩ := DataFrame.allocate_ok pool hmax
  have hempty : { f with type := .tls }.Shows [] r.length :=
    ⟨hempty.readOnly, hempty.length, hempty.memory, hempty.room⟩
  have hroom : (mem.take k).length ≤ r.length := by
    rw [List.length_take]
    omega
  obtain ⟨g, hset, hshows⟩ := hempty.copySet hroom
  have hcopy : (if decide (mem.length < r.length) = true then mem.length else r.length) = k := by
    simp only [decide_eq_true_eq]
    split_ifs <;> omega
  refine ⟨g, hshows, ?_⟩
  rw [beginFrame, do_of_ok hstruct]
  dsimp only
  rw [hlength, do_of_ok hallocate, hcopy, do_of_ok hset]
  simp only [decide_eq_true_eq]

theorem turn_between {before after : List (List UInt8)} (hwf : ∀ r ∈ records, IsRecord r)
    (split : records = before ++ after) (frames : n.frames.map DataFrame.readOnly = before)
    (awaits : n.signaler.countAwaits = 0) (current : n.currentFrame = none)
    (left : n.lengthLeft = 0) (hmem : mem ≠ []) (hpre : mem <+: after.flatten) :
    TurnResult pool records n before.flatten.length mem := by
  obtain ⟨r, after, rfl⟩ : ∃ r rest, after = r :: rest := by
    apply List.exists_cons_of_ne_nil
    rintro rfl
    exact hmem (List.prefix_nil.mp hpre)
  rw [List.flatten_cons] at hpre
  have hr : IsRecord r := hwf r (by simp [split])
  by_cases hshort : mem.length < sizeRecord
  · refine .throws (.raised .indexOutOfRange) ?_ ⟨before, r, after, split, ?_, ?_⟩
    · simp only [turn, current, beginFrame, toStruct_short hshort]
      rfl
    · exact Nat.lt_add_of_pos_right (List.length_pos_iff.mpr hmem)
    · omega
  have hfive : sizeRecord ≤ mem.length := by omega
  have hheader : mem.take sizeRecord = r.take sizeRecord := by
    have heq := List.prefix_iff_eq_take.mp ((List.take_prefix sizeRecord mem).trans hpre)
    rwa [List.length_take_of_le hfive, List.take_append_of_le_length hr.five_le] at heq
  rcases lt_or_ge mem.length r.length with hfrag | hwhole
  · -- the fragment ends inside of the record
    obtain ⟨g, hshows, hbegin⟩ :=
      beginFrame_ok pool n hr hheader (min_eq_left hfrag.le).symm
    rw [List.take_length] at hshows
    refine .takes mem.length _ (List.length_pos_iff.mpr hmem) le_rfl ?_
      (.within (n := { n with
        isFragmented := decide (mem.length < r.length)
        lengthLeft := if mem.length < r.length then (r.length : ℤ) - mem.length else n.lengthLeft
        currentFrame := some g }) split frames awaits rfl (if_pos hfrag) hshows ?_ hfive hfrag)
    · simp only [turn, current]
      rw [do_of_ok hbegin]
      dsimp only
      rw [if_neg]
      rw [if_pos hfrag]
      omega
    · exact List.prefix_of_prefix_length_le hpre (List.prefix_append _ _) hfrag.le
  · -- the fragment has all of the record
    obtain ⟨g, hshows, hbegin⟩ :=
      beginFrame_ok pool n hr hheader (min_eq_right hwhole).symm
    have hpart : r <+: mem :=
      List.prefix_of_prefix_length_le (List.prefix_append _ _) hpre hwhole
    rw [← List.prefix_iff_eq_take.mp hpart] at hshows
    rw [if_neg (Nat.not_lt.mpr hwhole)] at hbegin
    obtain ⟨signaler, invoked, hcomplete, hstands⟩ :=
      stands_enqueue (m := { n with isFragmented := decide (mem.length < r.length) }) split frames
        awaits left hshows.readOnly
    refine .takes r.length _ (Nat.lt_of_lt_of_le (by decide) hr.five_le) hwhole ?_ hstands
    simp only [turn, current]
    rw [do_of_ok hbegin]
    dsimp only
    rw [if_pos left, do_of_ok hcomplete]

variable (n) in
/-- The frame is filled with what the memory has of the bytes that are left. -/
theorem fillFrame_ok {f : DataFrame} {part : List UInt8} {left total k : ℕ}
    (shows : f.Shows part total) (hroom : part.length + left ≤ total) (hleft : n.lengthLeft = left)
    (hk : k = min mem.length left) :
    ∃ g, g.Shows (part ++ mem.take k) total ∧
      n.fillFrame mem f = .ok (mem.drop k, g, { n with lengthLeft := (left : ℤ) - k }) := by
  have htaken : (mem.take k).length = k := by
    rw [List.length_take]
    omega
  have hto := sliceTo_append (mem.take k) (mem.drop k)
  have hfrom := sliceFrom_append (mem.take k) (mem.drop k)
  rw [List.take_append_drop, htaken] at hto hfrom
  have hcopied : part.length + (mem.take k).length ≤ total := by omega
  obtain ⟨g, happend, hshows⟩ := shows.copyAppend hcopied
  have hcopy : (if n.lengthLeft > mem.length then (mem.length : ℤ) else n.lengthLeft) = k := by
    split_ifs <;> omega
  refine ⟨g, hshows, ?_⟩
  rw [fillFrame, hcopy, do_of_ok hto, do_of_ok happend, do_of_ok hfrom, hleft]

theorem turn_within {before after : List (List UInt8)} {r part : List UInt8} {f : DataFrame}
    (split : records = before ++ r :: after) (frames : n.frames.map DataFrame.readOnly = before)
    (awaits : n.signaler.countAwaits = 0) (current : n.currentFrame = some f)
    (left : n.lengthLeft = r.length - part.length) (shows : f.Shows part r.length)
    (partOf : part <+: r) (header : sizeRecord ≤ part.length) (short : part.length < r.length)
    (hmem : mem ≠ []) (hpre : mem <+: r.drop part.length ++ after.flatten) :
    TurnResult pool records n (before.flatten.length + part.length) mem := by
  obtain ⟨more, rfl⟩ := partOf
  rw [List.drop_left] at hpre
  have hleft : n.lengthLeft = more.length := by
    rw [List.length_append] at left
    omega
  have hroom : part.length + more.length ≤ (part ++ more).length := List.length_append.ge
  rcases lt_or_ge mem.length more.length with hfrag | hwhole
  · -- the fragment does not fill the frame
    have hpart : mem <+: more :=
      List.prefix_of_prefix_length_le hpre (List.prefix_append _ _) hfrag.le
    obtain ⟨g, hshows, hfill⟩ := fillFrame_ok n shows hroom hleft (min_eq_left hfrag.le).symm
    rw [List.take_length] at hshows
    refine .takes mem.length
      { n with currentFrame := some g, lengthLeft := (more.length : ℤ) - mem.length }
      (List.length_pos_iff.mpr hmem) le_rfl ?_ ?_
    · simp only [turn, current]
      rw [do_of_ok hfill]
      dsimp only
      rw [if_neg (by omega)]
    · have hlen : before.flatten.length + part.length + mem.length =
          before.flatten.length + (part ++ mem).length := by
        rw [List.length_append, Nat.add_assoc]
      rw [hlen]
      refine .within split frames awaits rfl (by simp) hshows ?_ ?_ (by simpa using hfrag)
      · exact (List.prefix_append_right_inj part).mpr hpart
      · rw [List.length_append]
        omega
  · -- the fragment has all that was left
    have hpart : more <+: mem :=
      List.prefix_of_prefix_length_le (List.prefix_append _ _) hpre hwhole
    obtain ⟨g, hshows, hfill⟩ := fillFrame_ok n shows hroom hleft (min_eq_right hwhole).symm
    rw [← List.prefix_iff_eq_take.mp hpart] at hshows
    rw [sub_self] at hfill
    obtain ⟨signaler, invoked, hcomplete, hstands⟩ :=
      stands_enqueue (m := { n with lengthLeft := 0 }) split frames awaits rfl hshows.readOnly
    rw [List.length_append, ← Nat.add_assoc] at hstands
    have hmore : 0 < more.length := by
      rw [List.length_append] at short
      omega
    refine .takes more.length _ hmore hwhole ?_ hstands
    simp only [turn, current]
    rw [do_of_ok hfill]
    dsimp only
    rw [if_pos rfl, do_of_ok hcomplete]

theorem Stands.pos_le (h : Stands records n pos) : pos ≤ records.flatten.length := by
  cases h with
  | between split => simp [split]
  | within split _ _ _ _ _ partOf =>
    have hle := partOf.length_le
    simp only [split, List.flatten_append, List.flatten_cons, List.length_append]
    omega

variable (pool) in
theorem Stands.turn (hwf : ∀ r ∈ records, IsRecord r) (h : Stands records n pos) (hmem : mem ≠ [])
    (hpre : mem <+: records.flatten.drop pos) : TurnResult pool records n pos mem := by
  cases h with
  | between split frames awaits current left =>
    rw [split, List.flatten_append, List.drop_left] at hpre
    exact turn_between hwf split frames awaits current left hmem hpre
  | within split frames awaits current left shows partOf header short =>
    apply turn_within split frames awaits current left shows partOf header short hmem
    rwa [split, List.flatten_append, List.drop_append, List.drop_eq_nil_of_le (by omega),
      List.nil_append, Nat.add_sub_cancel_left, List.flatten_cons,
      List.drop_append_of_le_length partOf.length_le] at hpre

/-- Of two places between records, the one that is before a record is no later, or the record is
before the other. -/
theorem flatten_length_le_or {before after front back : List (List UInt8)} {r : List UInt8}
    (h : before ++ after = front ++ r :: back) :
    before.flatten.length ≤ front.flatten.length ∨
      front.flatten.length + r.length ≤ before.flatten.length := by
  rcases List.append_eq_append_iff.mp h with ⟨mid, rfl, -⟩ | ⟨mid, rfl, hmid⟩
  · refine .inl ?_
    rw [List.flatten_append, List.length_append]
    exact Nat.le_add_right _ _
  · cases mid with
    | nil => exact .inl (by simp)
    | cons a mid =>
      obtain ⟨rfl, -⟩ := List.cons.inj hmid
      refine .inr ?_
      simp only [List.flatten_append, List.flatten_cons, List.length_append]
      omega

/-- No header is cut where the node stands: the headers begin where the records do. -/
theorem Stands.not_cutsHeader (hwf : ∀ r ∈ records, IsRecord r) (h : Stands records n pos) :
    ¬ CutsHeader records pos := by
  rintro ⟨front, r, back, hsplit, hlow, hhigh⟩
  cases h with
  | between split =>
    have hr := (hwf r (by simp [hsplit])).five_le
    rcases flatten_length_le_or (split.symm.trans hsplit) with hle | hle <;> omega
  | within split _ _ _ _ _ _ header short =>
    rcases flatten_length_le_or (hsplit.symm.trans split) with hle | hle <;> omega

variable (pool) in
/-- The node takes a fragment whole, or throws where it ends in a header. -/
theorem takeFrames_spec (hwf : ∀ r ∈ records, IsRecord r) {turns : ℕ} (h : Stands records n pos)
    (hturns : mem.length < turns) (hpre : mem <+: records.flatten.drop pos) :
    (∃ m, takeFrames pool turns mem n = .ok m ∧ Stands records m (pos + mem.length)) ∨
      (∃ fault, takeFrames pool turns mem n = .error (.threw fault)) ∧
        CutsHeader records (pos + mem.length) := by
  induction turns generalizing n pos mem with
  | zero => omega
  | succ turns ih =>
    rw [takeFrames]
    split_ifs with hmem
    · subst hmem
      exact .inl ⟨n, rfl, h⟩
    · cases h.turn pool hwf hmem hpre with
      | takes k m hpos hle hturn hstands =>
        rw [hturn]
        have hrest : mem.drop k <+: records.flatten.drop (pos + k) := by
          obtain ⟨back, hback⟩ := hpre
          rw [← List.drop_drop, ← hback, List.drop_append_of_le_length hle]
          exact List.prefix_append _ _
        have hlen : pos + k + (mem.drop k).length = pos + mem.length := by
          rw [List.length_drop]
          omega
        rw [← hlen]
        exact ih hstands (by rw [List.length_drop]; omega) hrest
      | throws fault hturn hcuts =>
        rw [hturn]
        exact .inr ⟨⟨fault, rfl⟩, hcuts⟩

variable (pool) in
theorem takeFrag_spec (hwf : ∀ r ∈ records, IsRecord r) (h : Stands records n pos)
    (hpre : mem <+: records.flatten.drop pos) :
    (∃ m, takeFrag pool n mem = .ok m ∧ Stands records m (pos + mem.length)) ∧
        ¬ CutsHeader records (pos + mem.length) ∨
      (∃ fault, takeFrag pool n mem = .error fault) ∧ CutsHeader records (pos + mem.length) := by
  rcases takeFrames_spec pool hwf h (Nat.lt_succ_self mem.length) hpre with
    ⟨m, hok, hstands⟩ | ⟨⟨fault, herror⟩, hcuts⟩
  · exact .inl ⟨⟨m, hok, hstands⟩, hstands.not_cutsHeader hwf⟩
  · exact .inr ⟨⟨.threw fault, herror⟩, hcuts⟩

variable (pool) in
theorem run_iff (hwf : ∀ r ∈ records, IsRecord r) (h : Stands records n pos)
    {frags : List (List UInt8)} (hfrags : frags.flatten = records.flatten.drop pos) :
    (∃ m, run (takeFrag pool) n frags = .ok m) ↔
      ∀ made, made <+: frags → ¬ CutsHeader records (pos + made.flatten.length) := by
  induction frags generalizing n pos with
  | nil =>
    apply iff_of_true ⟨n, rfl⟩
    intro made hmade
    rw [List.prefix_nil.mp hmade]
    exact h.not_cutsHeader hwf
  | cons frag frags ih =>
    rw [List.flatten_cons] at hfrags
    rcases takeFrag_spec pool hwf h (hfrags ▸ List.prefix_append frag _) with
      ⟨⟨m, hok, hstands⟩, hnot⟩ | ⟨⟨fault, herror⟩, hcuts⟩
    · have hrest : frags.flatten = records.flatten.drop (pos + frag.length) := by
        rw [← List.drop_drop, ← hfrags, List.drop_left]
      have hrun : run (takeFrag pool) n (frag :: frags) = run (takeFrag pool) m frags := by
        rw [run_cons, hok]
        rfl
      rw [hrun, ih hstands hrest]
      constructor
      · intro hall made hmade
        cases made with
        | nil => exact h.not_cutsHeader hwf
        | cons a made =>
          obtain ⟨rfl, hfront⟩ := List.cons_prefix_cons.mp hmade
          rw [List.flatten_cons, List.length_append, ← Nat.add_assoc]
          exact hall made hfront
      · intro hall made hmade
        have hcut := hall (frag :: made) (List.cons_prefix_cons.mpr ⟨rfl, hmade⟩)
        rwa [List.flatten_cons, List.length_append, ← Nat.add_assoc] at hcut
    · refine iff_of_false ?_ fun hall => ?_
      · rintro ⟨m, hrun⟩
        rw [run_cons, herror] at hrun
        cases hrun
      · exact hall [frag] (List.cons_prefix_cons.mpr ⟨rfl, List.nil_prefix⟩) (by simpa using hcuts)

/-- At the end of the stream all records are frames. -/
theorem Stands.frames_of_end (hwf : ∀ r ∈ records, IsRecord r)
    (h : Stands records n records.flatten.length) :
    n.frames.map DataFrame.readOnly = records := by
  generalize hend : records.flatten.length = pos at h
  cases h with
  | @between before after split frames =>
    rw [split, List.flatten_append, List.length_append] at hend
    have hnil : after = [] := by
      cases after with
      | nil => rfl
      | cons r after =>
        have hr := (hwf r (by simp [split])).five_le
        simp only [List.flatten_cons, List.length_append, sizeRecord] at hend hr
        omega
    rw [frames, split, hnil, List.append_nil]
  | within split _ _ _ _ _ _ _ short =>
    rw [split] at hend
    simp only [List.flatten_append, List.flatten_cons, List.length_append] at hend
    omega

theorem run_stands (hwf : ∀ r ∈ records, IsRecord r) (h : Stands records n pos)
    {frags : List (List UInt8)} (hfrags : frags.flatten = records.flatten.drop pos)
    {m : NodeTlsFramesReader} (hrun : run (takeFrag pool) n frags = .ok m) :
    Stands records m records.flatten.length := by
  induction frags generalizing n pos with
  | nil =>
    cases hrun
    have hend : pos = records.flatten.length :=
      le_antisymm h.pos_le (List.drop_eq_nil_iff.mp hfrags.symm)
    exact hend ▸ h
  | cons frag frags ih =>
    obtain ⟨l, hl, hrun⟩ := run_cons_ok_iff.mp hrun
    rw [List.flatten_cons] at hfrags
    rcases takeFrag_spec pool hwf h (hfrags ▸ List.prefix_append frag _) with
      ⟨⟨m', hok, hstands⟩, -⟩ | ⟨⟨fault, herror⟩, -⟩
    · cases hl.symm.trans hok
      refine ih hstands ?_ hrun
      rw [← List.drop_drop, ← hfrags, List.drop_left]
    · rw [herror] at hl
      cases hl

theorem reassemblesFrames_iff (pool : ArrayPool) (s : RecordStream) :
    Reassembles pool s ↔
      ∀ made, made <+: s.appends → ¬ CutsHeader s.records made.flatten.length := by
  have hnone : s.records = [] ++ s.records := rfl
  have hstart : Stands s.records {} 0 := .between hnone rfl rfl rfl rfl
  have hsplit : s.appends.flatten = s.records.flatten.drop 0 := s.split
  have hiff := run_iff pool s.wellFormed hstart hsplit
  simp only [Nat.zero_add] at hiff
  rw [← hiff]
  constructor
  · rintro ⟨n, hrun, -⟩
    exact ⟨n, hrun⟩
  · rintro ⟨n, hrun⟩
    have hstands := run_stands s.wellFormed hstart hsplit hrun
    exact ⟨n, hrun, hstands.frames_of_end s.wellFormed⟩

/-- A record of one payload byte; the first fragment has only the type of it. -/
def splitHeader : RecordStream where
  records := [[0x14, 3, 3, 0, 1, 1]]
  appends := [[0x14], [3, 3, 0, 1, 1]]
  wellFormed := by
    intro r hr
    obtain rfl := List.mem_singleton.mp hr
    exact ⟨_, _, _, _, _, _, rfl, rfl⟩
  split := rfl

theorem not_reassembles_splitHeader : ¬ Reassembles .zeroed splitHeader := by
  rintro ⟨n, hrun, -⟩
  have hthrows : execute .zeroed splitHeader.appends =
      .error (.threw (.raised .indexOutOfRange)) := rfl
  rw [hthrows] at hrun
  cases hrun

end NodeTlsFramesReader

end DecodingProxy.Nodes
