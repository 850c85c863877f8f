import DecodingProxy.Piped.MessageFraming

/-!
# Field sections through `AwaitFeilds`

`ParseLineRecursive` takes a line of two bytes for the empty one, without a look at the bytes. So
the section is read up to the first such line, however it is cut into reads. That is the empty
line if every line ends with CR and LF.
-/

namespace DecodingProxy.Piped
open DecodingProxy.Runtime DecodingProxy.Lines DecodingProxy.Runs DecodingProxy.Http
open DecodingProxy.Piped.ConstantsForHttp

/-- The variables of `AwaitFeilds`, and its pipe. -/
structure FieldsRead where
  item : HttpBinaryMapped
  offset : ℕ := 0
  isEnd : Bool := false
  pipe : Pipe := {}

namespace FieldsRead

def start (item : HttpBinaryMapped) : FieldsRead := { item := item.fieldsStart }

/-- What is done with a read that is not empty. -/
def turn (pool : ArrayPool) (r : FieldsRead) : Except Fault FieldsRead := do
  let (isEnd, item, taken) ← parseLineRecursive pool r.item r.offset (lines LF r.pipe.pending)
  .ok { item, offset := item.length, isEnd, pipe := r.pipe.advanceTo (r.pipe.pending.drop taken) }

/-- One read. A call that has returned leaves what arrives in the pipe. -/
def step (pool : ArrayPool) (r : FieldsRead) (arrived : List UInt8) : Except Fault FieldsRead :=
  let r := { r with pipe := r.pipe.arrive arrived }
  if r.isEnd then .ok r
  else if r.pipe.reading then .error (.raised .invalidOperation)
  else if r.pipe.pending = [] then .ok r
  else r.turn pool

end FieldsRead

/-- `ReadObjectAsync` reads the fields with this loop, and goes on with the body. -/
theorem ObjectReader.turn_awaitFeilds (pool : ArrayPool) {r : ObjectReader}
    {item : HttpBinaryMapped} {offset : ℕ} (hphase : r.phase = .fields item offset) :
    r.turn pool = (({ item, offset, pipe := r.pipe } : FieldsRead).turn pool >>= fun f =>
      if f.isEnd then ({ r with pipe := f.pipe } : ObjectReader).beginBody pool f.item
      else .ok { r with pipe := f.pipe, phase := .fields f.item f.offset }) := by
  unfold ObjectReader.turn FieldsRead.turn
  rw [hphase]
  dsimp only
  cases parseLineRecursive pool item offset (lines LF r.pipe.pending) <;> rfl

/-- An item from the pool, possibly with the array of an earlier message. -/
structure Rented (item : HttpBinaryMapped) : Prop where
  maps : item.maps = []
  fieldsCount : item.fieldsCount = 0
  fieldsCountMapped : item.fieldsCountMapped = 0
  fits : item.datas.length ≤ arrayMaxLength
  returnable : returnable item.datas.length = true

theorem rented_empty (type : MessageType) : Rented { type } :=
  ⟨rfl, rfl, rfl, Nat.zero_le _, rfl⟩

theorem Rented.holds {item : HttpBinaryMapped} (h : Rented item) : Holds [] item.fieldsStart where
  wellFormed := ⟨Nat.zero_le _, h.fits, h.returnable⟩
  memory := rfl
  fieldsCount := h.fieldsCount
  fieldsCountMapped := h.fieldsCountMapped
  maps := rfl

/-- The lines up to the first one that is exactly a line end. -/
structure FieldSection where
  fields : List (List UInt8)
  isLine : ∀ l ∈ fields, IsLine LF l
  notEmpty : CRLF ∉ fields

def FieldSection.lines (s : FieldSection) : List (List UInt8) := s.fields ++ [CRLF]

def FieldSection.bytes (s : FieldSection) : List UInt8 := s.lines.flatten

/-- The entries go on from one to the next from `start` to `stop`. -/
def Tiles (start stop : ℕ) : List (ℕ × ℕ) → Prop
  | [] => start = stop
  | (offset, length) :: entries => offset = start ∧ 0 < length ∧ Tiles (start + length) stop entries

/-- The entries that are mapped. -/
def HttpBinaryMapped.fieldMap (item : HttpBinaryMapped) : List (ℕ × ℕ) :=
  item.maps.take item.fieldsCountMapped

/-- The section was read: its lines are those of the map, each one ends with CR and LF, and what
follows the section is left in the pipe. -/
structure ReadAs (s : FieldSection) (following : List UInt8) (r : FieldsRead) : Prop where
  isEnd : r.isEnd = true
  tiles : Tiles 0 r.item.indexEndFields r.item.fieldMap
  lines : r.item.mappedLines r.item.fieldsCountMapped = s.lines
  ends : ∀ l ∈ r.item.mappedLines r.item.fieldsCountMapped, CRLF <:+ l
  left : r.pipe.pending = following

/-- However the section arrives, it is read, with one map for all reads. -/
def ReadsFields (pool : ArrayPool) (s : FieldSection) : Prop :=
  ∃ fieldMap, ∀ item following (reads : List (List UInt8)), Rented item →
    reads.flatten = s.bytes ++ following →
    ∃ r, run (FieldsRead.step pool) (.start item) reads = .ok r ∧ ReadAs s following r ∧
      r.item.fieldMap = fieldMap

/-! ### The map of a section -/

theorem tiles_ranges {ls : List (List UInt8)} (hne : ∀ l ∈ ls, l ≠ []) (start : ℕ) :
    Tiles start (start + ls.flatten.length) (ranges start ls) := by
  induction ls generalizing start with
  | nil => rfl
  | cons l ls ih =>
    refine ⟨rfl, List.length_pos_of_ne_nil (hne l List.mem_cons_self), ?_⟩
    rw [List.flatten_cons, List.length_append, ← Nat.add_assoc]
    exact ih (fun m hm => hne m (List.mem_cons_of_mem _ hm)) _

theorem Holds.fieldMap {ls : List (List UInt8)} {item : HttpBinaryMapped} (h : Holds ls item) :
    item.fieldMap = ranges 0 ls := by
  rw [HttpBinaryMapped.fieldMap, h.fieldsCountMapped, h.maps]

/-! ### Lines of which only the last has two bytes -/

/-- What a call has read of the lines, and what it has still to read. -/
inductive Reads (ls : List (List UInt8)) (following future : List UInt8) : FieldsRead → Prop
  | part {r : FieldsRead} {done todo : List (List UInt8)} (hlines : ls = done ++ todo)
      (htodo : EndsShort todo) (hitem : Holds done r.item)
      (hoffset : r.offset = done.flatten.length)
      (hend : r.isEnd = false) (hreading : r.pipe.reading = false)
      (hshort : r.pipe.pending.length < todo.flatten.length)
      (hleft : r.pipe.pending ++ future = todo.flatten ++ following) : Reads ls following future r
  | whole {r : FieldsRead} (hitem : Holds ls r.item)
      (hmark : r.item.indexEndFields = ls.flatten.length) (hend : r.isEnd = true)
      (hleft : r.pipe.pending ++ future = following) : Reads ls following future r

section Run
variable (pool : ArrayPool) {ls : List (List UInt8)} {following future arrived : List UInt8}
  {r : FieldsRead}

theorem reads_start {item : HttpBinaryMapped} (h : Rented item) (hls : EndsShort ls)
    (hfuture : future = ls.flatten ++ following) : Reads ls following future (.start item) :=
  .part (List.nil_append ls).symm hls h.holds rfl rfl rfl hls.flatten_pos hfuture

variable {done todo : List (List UInt8)}

theorem FieldsRead.turn_part (htodo : EndsShort todo) (hitem : Holds done r.item)
    (hoffset : r.offset = done.flatten.length)
    (hfits : (done ++ todo).flatten.length ≤ arrayMaxLength)
    (hleft : r.pipe.pending ++ future = todo.flatten ++ following) :
    ∃ r', r.turn pool = .ok r' ∧ Reads (done ++ todo) following future r' := by
  unfold FieldsRead.turn
  rw [hoffset]
  rcases Nat.lt_or_ge r.pipe.pending.length todo.flatten.length with hshort | hwhole
  · have hpart : r.pipe.pending <+: todo.flatten :=
      List.prefix_of_prefix_length_le (hleft ▸ List.prefix_append _ _)
        (List.prefix_append _ _) hshort.le
    obtain ⟨item', new, todo', part, rfl, hends, hsplit, hless, hparse, hitem', -⟩ :=
      parseLineRecursive_some pool hitem htodo hfits hpart hshort
    have hdrop : r.pipe.pending.drop new.flatten.length = part := by
      rw [hsplit, List.drop_left]
    rw [do_of_ok hparse]
    dsimp only
    rw [hdrop]
    rw [hsplit, List.flatten_append, List.append_assoc, List.append_assoc] at hleft
    exact ⟨_, rfl, .part (List.append_assoc _ _ _).symm hends hitem' hitem'.length rfl rfl hless
      (List.append_cancel_left hleft)⟩
  · obtain ⟨more, hmore⟩ := List.prefix_of_prefix_length_le (List.prefix_append _ _)
      (hleft ▸ List.prefix_append r.pipe.pending future) hwhole
    obtain ⟨item', hparse, hitem', -⟩ :=
      parseLineRecursive_whole pool hitem htodo hfits hmore.symm
    have hmarks := parseLineRecursive_marks hparse
    have hdrop : r.pipe.pending.drop todo.flatten.length = more := by
      rw [← hmore, List.drop_left]
    rw [do_of_ok hparse]
    dsimp only
    rw [hdrop]
    rw [← hmore, List.append_assoc] at hleft
    exact ⟨_, rfl, .whole hitem' (hmarks.trans hitem'.length) rfl
      (List.append_cancel_left hleft)⟩

theorem Reads.step (hfits : ls.flatten.length ≤ arrayMaxLength)
    (h : Reads ls following (arrived ++ future) r) :
    ∃ r', r.step pool arrived = .ok r' ∧ Reads ls following future r' := by
  unfold FieldsRead.step
  cases h with
  | @part done todo hlines htodo hitem hoffset hend hreading hshort hleft =>
    rw [← List.append_assoc] at hleft
    dsimp only
    rw [if_neg (by simp [hend]), if_neg (by simp [hreading])]
    split_ifs with hnil
    · refine ⟨_, rfl, .part hlines htodo hitem hoffset hend hreading ?_ hleft⟩
      rw [hnil]
      exact htodo.flatten_pos
    · obtain rfl := hlines
      exact FieldsRead.turn_part pool (r := { r with pipe := r.pipe.arrive arrived }) htodo hitem
        hoffset hfits hleft
  | whole hitem hmark hend hleft =>
    rw [← List.append_assoc] at hleft
    rw [if_pos hend]
    exact ⟨_, rfl, .whole hitem hmark hend hleft⟩

theorem Reads.run (hfits : ls.flatten.length ≤ arrayMaxLength) {reads : List (List UInt8)}
    (h : Reads ls following (reads.flatten ++ future) r) :
    ∃ r', run (FieldsRead.step pool) r reads = .ok r' ∧ Reads ls following future r' := by
  induction reads generalizing r with
  | nil => exact ⟨r, rfl, h⟩
  | cons arrived reads ih =>
    rw [List.flatten_cons, List.append_assoc] at h
    obtain ⟨r', hstep, h'⟩ := h.step pool hfits
    obtain ⟨r'', hrun, h''⟩ := ih h'
    exact ⟨r'', run_cons_ok_iff.mpr ⟨r', hstep, hrun⟩, h''⟩

/-- When everything has come, the lines are read, wherever the reads end. -/
theorem awaitFeilds_endsShort (hls : EndsShort ls) (hfits : ls.flatten.length ≤ arrayMaxLength)
    {item : HttpBinaryMapped} (hitem : Rented item) {reads : List (List UInt8)}
    (hreads : reads.flatten = ls.flatten ++ following) :
    ∃ r, Runs.run (FieldsRead.step pool) (.start item) reads = .ok r ∧ r.isEnd = true ∧
      Holds ls r.item ∧ r.item.indexEndFields = ls.flatten.length ∧ r.pipe.pending = following := by
  have hstart : Reads ls following (reads.flatten ++ []) (.start item) :=
    reads_start hitem hls (by rw [List.append_nil, hreads])
  obtain ⟨r, hrun, hreads⟩ := hstart.run pool hfits
  cases hreads with
  | part _ _ _ _ _ _ hshort hleft =>
    have hlength := congrArg List.length hleft
    simp only [List.length_append, List.length_nil] at hlength
    omega
  | whole hitem hmark hend hleft =>
    rw [List.append_nil] at hleft
    exact ⟨r, hrun, hend, hitem, hmark, hleft⟩

end Run

/-! ### Sections -/

theorem FieldSection.endsShort {s : FieldSection} (hends : ∀ l ∈ s.fields, CRLF <:+ l) :
    EndsShort s.lines where
  isLine := by
    intro l hl
    rcases List.mem_append.mp hl with hl | hl
    · exact s.isLine l hl
    · exact List.mem_singleton.mp hl ▸ isLine_crlf
  split := by
    refine ⟨s.fields, CRLF, rfl, rfl, ?_⟩
    intro l hl htwo
    have heq := (hends l hl).eq_of_length htwo.symm
    exact s.notEmpty (heq ▸ hl)

/-- A section that is taken in one read fits an array. -/
theorem FieldSection.fits {pool : ArrayPool} {s : FieldSection} (hends : ∀ l ∈ s.fields, CRLF <:+ l)
    {item : HttpBinaryMapped} (hitem : Rented item) {r : FieldsRead}
    (h : (FieldsRead.start item).step pool s.bytes = .ok r) : s.bytes.length ≤ arrayMaxLength := by
  have hlines := s.endsShort hends
  have hne : s.bytes ≠ [] := List.length_pos_iff.mp hlines.flatten_pos
  have hoffer : Lines.lines LF s.bytes = s.fields ++ CRLF :: [] := by
    have hall := lines_flatten hlines.isLine []
    rw [List.append_nil, show Lines.lines LF [] = [] from rfl, List.append_nil] at hall
    exact hall
  obtain ⟨content, last, hsplit, hlast, hcontent⟩ := hlines.split
  obtain ⟨rfl, -⟩ := List.append_inj' hsplit rfl
  unfold FieldsRead.step at h
  rw [if_neg (by simp [FieldsRead.start]), if_neg (by simp [FieldsRead.start]),
    if_neg (by simpa [FieldsRead.start] using hne)] at h
  unfold FieldsRead.turn at h
  obtain ⟨result, hparse, -⟩ := do_ok_iff.mp h
  simp only [FieldsRead.start, Pipe.arrive_pending, List.nil_append, hoffer] at hparse
  have hfits := parseLineRecursive_fits hcontent hitem.holds.adding hparse
  rwa [List.flatten_nil, List.length_nil, Nat.zero_add] at hfits

theorem ReadsFields.ends {pool : ArrayPool} {s : FieldSection} (h : ReadsFields pool s) :
    ∀ l ∈ s.fields, CRLF <:+ l := by
  obtain ⟨fieldMap, h⟩ := h
  obtain ⟨r, -, hread, -⟩ := h _ [] [s.bytes] (rented_empty .request) (by simp)
  intro l hl
  apply hread.ends l
  rw [hread.lines]
  exact List.mem_append_left _ hl

/-- The section is read exactly if each of its lines ends with CR and LF, and it fits an array. -/
theorem readsFields_iff (pool : ArrayPool) (s : FieldSection) :
    ReadsFields pool s ↔
      (∀ l ∈ s.fields, CRLF <:+ l) ∧ s.bytes.length ≤ arrayMaxLength := by
  constructor
  · intro h
    have hends := h.ends
    obtain ⟨fieldMap, h⟩ := h
    obtain ⟨r, hrun, -⟩ := h _ [] [s.bytes] (rented_empty .request) (by simp)
    obtain ⟨_, hstep, -⟩ := run_cons_ok_iff.mp hrun
    exact ⟨hends, FieldSection.fits hends (rented_empty .request) hstep⟩
  · intro ⟨hends, hfits⟩
    have hlines := FieldSection.endsShort hends
    refine ⟨ranges 0 s.lines, fun item following reads hitem hreads => ?_⟩
    obtain ⟨r, hrun, hend, hholds, hmark, hleft⟩ :=
      awaitFeilds_endsShort pool hlines hfits hitem hreads
    have hmapped : r.item.mappedLines r.item.fieldsCountMapped = s.lines := by
      rw [hholds.fieldsCountMapped, hholds.mappedLines]
    refine ⟨r, hrun, ⟨hend, ?_, hmapped, ?_, hleft⟩, hholds.fieldMap⟩
    · have hne : ∀ l ∈ s.lines, l ≠ [] := by
        intro l hl
        obtain ⟨content, -, rfl⟩ := hlines.isLine l hl
        simp
      have htiles := tiles_ranges hne 0
      rwa [Nat.zero_add, ← hholds.fieldMap, ← hmark] at htiles
    · rw [hmapped]
      intro l hl
      rcases List.mem_append.mp hl with hl | hl
      · exact hends l hl
      · rw [List.mem_singleton.mp hl]

/-- The second of three fields is a letter and a line feed. -/
def sectionOfShortLine : FieldSection where
  fields := [asciiBytes "GET / HTTP/1.1\r\n", asciiBytes "a\n", asciiBytes "Host: x\r\n"]
  isLine := by
    have hline : ∀ content, LF ∉ content → IsLine LF (content ++ [LF]) := fun content h =>
      ⟨content, h, rfl⟩
    simp only [List.forall_mem_cons]
    exact ⟨hline (asciiBytes "GET / HTTP/1.1\r") (by decide), hline (asciiBytes "a") (by decide),
      hline (asciiBytes "Host: x\r") (by decide), by simp⟩
  notEmpty := by decide

/-- The short line ends the section, and the field after it is left for the body. -/
theorem not_readsFields_short :
    (∃ r, run (FieldsRead.step .zeroed) (.start { type := .request }) [sectionOfShortLine.bytes] =
        .ok r ∧ r.isEnd = true ∧
      r.item.mappedLines r.item.fieldsCountMapped =
        [asciiBytes "GET / HTTP/1.1\r\n", asciiBytes "a\n"] ∧
      r.pipe.pending = asciiBytes "Host: x\r\n\r\n") ∧
    ¬ ReadsFields .zeroed sectionOfShortLine := by
  refine ⟨⟨_, rfl, rfl, ?_, ?_⟩, fun h => ?_⟩
  · decide
  · decide
  · have hends := h.ends (asciiBytes "a\n") (by decide)
    revert hends
    decide

end DecodingProxy.Piped
