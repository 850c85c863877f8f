import DecodingProxy.Lib.Runs
import DecodingProxy.Recording.SequenceFactory
import DecodingProxy.Recording.StreamForRecording
import DecodingProxy.Runtime.Memory

/-!
# `HttpRecordAnalyzer`

A recorded file is loaded into a rented array and analysed: the slices are taken out from behind
their delimeters and put together to the recorded data, which is written to a `.clear` file. A
`.clear` file is loaded in the same way, and its data is taken to be all of the rented array.
-/

namespace DecodingProxy.Recording
open DecodingProxy.Arrays DecodingProxy.Runs DecodingProxy.Runtime

/-! ### `Record` -/

structure Record where
  delimeters : List Delimeter := []
  slices : List (List UInt8) := []
  /-- Data from the file with `Delimeter`. -/
  datasAsMemRaw : List UInt8
  datasAsMem : List UInt8 := []
  datasAsBytesRaw : List UInt8
  datasAsBytes : List UInt8 := []
  dir : String
  filename : String
  ext : String
  deriving DecidableEq, Repr

namespace Record

/-- `LoadFiles` on one file: the read fills the rented array as far as the file goes. -/
def load (pool : ArrayPool) (dir filename ext : String) (content : List UInt8) :
    Except Fault Record := do
  let buffer ← pool.rent (int32 content.length)
  let readed := content.take buffer.length
  let buffer := writeAt buffer 0 readed
  .ok {
    datasAsBytesRaw := buffer
    datasAsMemRaw := buffer.take readed.length
    dir
    filename
    ext }

/-- One turn of the loop: the delimeter, the slice behind it, and the rest. -/
def readSlice (mem : List UInt8) : Except Fault (Delimeter × List UInt8 × List UInt8) := do
  let header ← sliceTo mem 16
  let del ← Delimeter.toStruct header
  let mem ← sliceFrom mem 16
  let slice ← sliceTo mem del.length
  let mem ← sliceFrom mem del.length
  .ok (del, slice, mem)

/-- The loop, at most `turns` turns of it. -/
def readSlices : ℕ → ℤ → List UInt8 → Record → Except Halt Record
  | 0, _, _, _ => .error .diverges
  | turns + 1, length, mem, r =>
    if length > 0 then do
      let (del, slice, mem) ← (readSlice mem).mapError .threw
      readSlices turns (length - (16 + slice.length)) mem
        { r with delimeters := r.delimeters ++ [del], slices := r.slices ++ [slice] }
    else .ok r

/-- The part of the branch for a file with delimeters behind its loop. -/
def join (files : Files) (r : Record) : Except Fault (Record × Files) := do
  let sequence ← SequenceFactory.fromEnumerable r.slices
  let datasAsBytes ← SequenceFactory.toArray sequence
  let files := Function.update files (r.dir, r.filename ++ r.ext ++ ".clear") (some datasAsBytes)
  .ok ({ r with datasAsBytes, datasAsMem := datasAsBytes }, files)

/-- Every turn of the loop takes a delimeter from the memory. -/
def analyzStage2 (files : Files) (r : Record) : Except Halt (Record × Files) :=
  if r.ext ≠ ".clear" then do
    let r ← readSlices (r.datasAsMemRaw.length + 1) r.datasAsMemRaw.length r.datasAsMemRaw r
    (r.join files).mapError .threw
  else
    .ok ({ r with datasAsBytes := r.datasAsBytesRaw, datasAsMem := r.datasAsBytesRaw }, files)

variable {pool : ArrayPool} {dir filename ext : String} {content : List UInt8}
  {slices : List (List UInt8)}

theorem load_ok (pool : ArrayPool) (dir filename ext : String)
    (h : content.length ≤ arrayMaxLength) :
    load pool dir filename ext content = .ok {
      datasAsBytesRaw := writeAt (pool.contents content.length) 0 content
      datasAsMemRaw := content
      dir
      filename
      ext } := by
  have hlength : int32 content.length = content.length := by
    have hsmall : arrayMaxLength < 2 ^ 31 := by decide
    exact int32_of_range (by omega) (by omega)
  have hroom : content.length ≤ (pool.contents content.length).length := by
    rw [pool.contents_length]
    exact le_rentLength _
  rw [load, hlength, do_of_ok (pool.rent_ok h)]
  dsimp only
  rw [List.take_of_length_le hroom]
  simp [writeAt]

theorem load_inv {r : Record} (h : load pool dir filename ext content = .ok r) :
    r.slices = [] ∧ r.ext = ext ∧ r.datasAsMemRaw.length ≤ arrayMaxLength := by
  obtain ⟨buffer, hrent, h⟩ := do_ok_iff.mp h
  cases h
  obtain ⟨-, -, hmax, -⟩ := ArrayPool.rent_inv hrent
  refine ⟨rfl, rfl, (List.length_take_le' _ _).trans ?_⟩
  rwa [writeAt_length (by simp)]

theorem readSlice_framed {d : Delimeter} {slice : List UInt8} (rest : List UInt8)
    (hd : d.length = slice.length) (hfits : slice.length < 2 ^ 31) :
    ∃ del, readSlice (d.toBytes ++ (slice ++ rest)) = .ok (del, slice, rest) := by
  have hto := sliceTo_append d.toBytes (slice ++ rest)
  have hfrom := sliceFrom_append d.toBytes (slice ++ rest)
  rw [Delimeter.length_toBytes, Nat.cast_ofNat] at hto hfrom
  have hlength : int32 d.length = slice.length := by
    rw [hd]
    exact int32_of_range (by omega) (by omega)
  refine ⟨⟨int32 d.index, int32 d.length, int64 d.dateTime⟩, ?_⟩
  rw [readSlice, do_of_ok hto, do_of_ok d.toStruct_toBytes, do_of_ok hfrom]
  dsimp only
  rw [hlength, do_of_ok (sliceTo_append slice rest), do_of_ok (sliceFrom_append slice rest)]

theorem readSlice_length {mem slice rest : List UInt8} {del : Delimeter}
    (h : readSlice mem = .ok (del, slice, rest)) :
    mem.length = 16 + slice.length + rest.length := by
  obtain ⟨header, hheader, h⟩ := do_ok_iff.mp h
  obtain ⟨d, -, h⟩ := do_ok_iff.mp h
  obtain ⟨behind, hbehind, h⟩ := do_ok_iff.mp h
  obtain ⟨part, hpart, h⟩ := do_ok_iff.mp h
  obtain ⟨left, hleft, h⟩ := do_ok_iff.mp h
  cases h
  obtain ⟨-, hsixteen, -⟩ := sliceTo_inv hheader
  obtain ⟨-, -, rfl⟩ := sliceFrom_inv hbehind
  obtain ⟨hnonneg, hle, rfl⟩ := sliceTo_inv hpart
  obtain ⟨-, -, rfl⟩ := sliceFrom_inv hleft
  simp only [List.length_drop, List.length_take] at hle ⊢
  omega

/-- The loop takes the slices out of a memory that is framed. -/
theorem readSlices_framed (turns : ℕ) (r : Record) (hframed : Framed content slices)
    (hfits : content.length < 2 ^ 31) (hturns : content.length < turns) :
    ∃ delimeters, readSlices turns content.length content r =
      .ok { r with delimeters, slices := r.slices ++ slices } := by
  obtain ⟨headers, hlengths, rfl⟩ := hframed
  induction slices generalizing headers turns r with
  | nil =>
    obtain ⟨turns, rfl⟩ : ∃ n, turns = n + 1 := ⟨turns - 1, by omega⟩
    exact ⟨r.delimeters, by simp [readSlices]⟩
  | cons slice slices ih =>
    cases headers with
    | nil => cases hlengths
    | cons d headers =>
      obtain ⟨hd, hlengths⟩ := List.cons.inj hlengths
      obtain ⟨turns, rfl⟩ : ∃ n, turns = n + 1 := ⟨turns - 1, by omega⟩
      rw [List.zipWith_cons_cons, List.flatten_cons, List.append_assoc] at hfits hturns ⊢
      set rest := (List.zipWith (fun d s => d.toBytes ++ s) headers slices).flatten with hrest
      have hlength : (d.toBytes ++ (slice ++ rest)).length = 16 + slice.length + rest.length := by
        rw [List.length_append, List.length_append, Delimeter.length_toBytes, Nat.add_assoc]
      rw [hlength] at hfits hturns
      obtain ⟨del, hslice⟩ := readSlice_framed rest hd (by omega)
      obtain ⟨delimeters, hread⟩ := ih turns
        { r with delimeters := r.delimeters ++ [del], slices := r.slices ++ [slice] } headers
        hlengths (by rw [← hrest]; omega) (by rw [← hrest]; omega)
      refine ⟨delimeters, ?_⟩
      have hleft : ((d.toBytes ++ (slice ++ rest)).length : ℤ) - (16 + slice.length) =
          rest.length := by
        rw [hlength]
        push_cast
        omega
      rw [readSlices, if_pos (by rw [hlength]; omega), hslice]
      change readSlices turns _ rest _ = _
      rw [hleft, hread]
      simp

/-- However the loop comes to an end, it has used up the memory. -/
theorem readSlices_length {turns : ℕ} {mem : List UInt8} {r r' : Record}
    (h : readSlices turns mem.length mem r = .ok r') :
    framedLength r'.slices = framedLength r.slices + mem.length := by
  induction turns generalizing mem r with
  | zero => cases h
  | succ turns ih =>
    rw [readSlices] at h
    split_ifs at h with hpos
    · cases hslice : readSlice mem with
      | error fault =>
        rw [hslice] at h
        cases h
      | ok taken =>
        obtain ⟨del, slice, rest⟩ := taken
        rw [hslice] at h
        change readSlices turns _ rest _ = _ at h
        have hlength := readSlice_length hslice
        have hleft : (mem.length : ℤ) - (16 + slice.length) = rest.length := by omega
        rw [hleft] at h
        have hrest := ih h
        simp only [framedLength, List.map_append, List.sum_append, List.map_cons, List.map_nil,
          List.sum_cons, List.sum_nil] at hrest ⊢
        omega
    · cases h
      omega

theorem analyzStage2_length {files files' : Files} {r analyzed : Record} (hext : r.ext ≠ ".clear")
    (hnew : r.slices = []) (h : r.analyzStage2 files = .ok (analyzed, files')) :
    framedLength analyzed.slices = r.datasAsMemRaw.length := by
  rw [analyzStage2, if_pos hext] at h
  obtain ⟨m, hread, h⟩ := do_ok_iff.mp h
  have hlength := readSlices_length hread
  rw [hnew] at hlength
  cases hjoin : m.join files with
  | error fault =>
    rw [hjoin] at h
    cases h
  | ok joined =>
    rw [hjoin] at h
    cases h
    obtain ⟨sequence, -, hjoin⟩ := do_ok_iff.mp hjoin
    obtain ⟨datas, -, hjoin⟩ := do_ok_iff.mp hjoin
    cases hjoin
    simpa [framedLength] using hlength

/-- What a file of these slices comes to. -/
theorem analyzStage2_framed (files : Files) (r : Record) (hext : r.ext ≠ ".clear")
    (hnew : r.slices = []) (hframed : Framed r.datasAsMemRaw slices)
    (hfits : r.datasAsMemRaw.length ≤ arrayMaxLength) (hne : slices ≠ []) :
    ∃ r', r.analyzStage2 files =
        .ok (r', Function.update files (r.dir, r.filename ++ r.ext ++ ".clear")
          (some slices.flatten)) ∧
      r'.slices = slices ∧ r'.datasAsMem = slices.flatten := by
  have hsmall : arrayMaxLength < 2 ^ 31 := by decide
  obtain ⟨delimeters, hread⟩ := readSlices_framed (r.datasAsMemRaw.length + 1) r hframed
    (by omega) (Nat.lt_succ_self _)
  have htotal : slices.flatten.length ≤ r.datasAsMemRaw.length := by
    rw [hframed.length, framedLength_eq]
    exact Nat.le_add_left _ _
  obtain ⟨segments, hsegments, harray⟩ :=
    SequenceFactory.toArray_fromEnumerable hne (by omega)
  rw [hnew, List.nil_append] at hread
  refine ⟨{ r with
    delimeters
    slices
    datasAsBytes := slices.flatten
    datasAsMem := slices.flatten }, ?_, rfl, rfl⟩
  rw [analyzStage2, if_pos hext, do_of_ok hread, join, do_of_ok hsegments, do_of_ok harray]
  rfl

end Record

/-- `Run` for one file: it is loaded, then analysed. -/
def analyzFile (pool : ArrayPool) (dir filename ext : String) (content : List UInt8)
    (files : Files) : Except Halt (Record × Files) := do
  let record ← (Record.load pool dir filename ext content).mapError .threw
  record.analyzStage2 files

/-- The file of these slices is there, its analysis gives the slices and their concatenation,
and the analysis of the `.clear` file that it writes gives the same data. -/
def Recovers (pool : ArrayPool) (files : Files) (dir filename ext : String)
    (slices : List (List UInt8)) : Prop :=
  ∃ content record files', files (dir, filename ++ ext) = some content ∧
    analyzFile pool dir filename ext content files = .ok (record, files') ∧
    record.slices = slices ∧ record.datasAsMem = slices.flatten ∧
    ∃ clear recordClear files'', files' (dir, filename ++ ext ++ ".clear") = some clear ∧
      analyzFile pool dir filename ".clear" clear files' = .ok (recordClear, files'') ∧
      recordClear.datasAsMem = record.datasAsMem

variable {pool : ArrayPool} {dir filename ext : String} {content : List UInt8} {files : Files}
  {slices : List (List UInt8)}

theorem RecordSide.ext_ne_clear (side : RecordSide) : side.ext ≠ ".clear" := by
  cases side <;> decide

variable (pool dir filename files) in
theorem analyzFile_framed (hext : ext ≠ ".clear") (hframed : Framed content slices)
    (hfits : content.length ≤ arrayMaxLength) (hne : slices ≠ []) :
    ∃ record, analyzFile pool dir filename ext content files =
        .ok (record,
          Function.update files (dir, filename ++ ext ++ ".clear") (some slices.flatten)) ∧
      record.slices = slices ∧ record.datasAsMem = slices.flatten := by
  let loaded : Record :=
    { datasAsBytesRaw := writeAt (pool.contents content.length) 0 content
      datasAsMemRaw := content
      dir
      filename
      ext }
  obtain ⟨record, hanalyz, hslices, hmem⟩ :=
    loaded.analyzStage2_framed files hext rfl hframed hfits hne
  refine ⟨record, ?_, hslices, hmem⟩
  rw [analyzFile, Record.load_ok pool dir filename ext hfits]
  exact hanalyz

variable (pool dir filename files) in
/-- The analysis of a `.clear` file takes the whole array that its data was loaded into. -/
theorem analyzFile_clear (hfits : content.length ≤ arrayMaxLength) :
    ∃ record, analyzFile pool dir filename ".clear" content files = .ok (record, files) ∧
      record.datasAsMem = writeAt (pool.contents content.length) 0 content := by
  set array := writeAt (pool.contents content.length) 0 content
  refine ⟨{
    datasAsMemRaw := content
    datasAsMem := array
    datasAsBytesRaw := array
    datasAsBytes := array
    dir
    filename
    ext := ".clear" }, ?_, rfl⟩
  rw [analyzFile, Record.load_ok pool dir filename ".clear" hfits]
  rfl

theorem analyzFile_length {record : Record} {files' : Files} (hext : ext ≠ ".clear")
    (h : analyzFile pool dir filename ext content files = .ok (record, files')) :
    framedLength record.slices ≤ arrayMaxLength := by
  rw [analyzFile] at h
  cases hload : Record.load pool dir filename ext content with
  | error fault =>
    rw [hload] at h
    cases h
  | ok loaded =>
    rw [hload] at h
    obtain ⟨hnew, hloaded, hmax⟩ := Record.load_inv hload
    exact (Record.analyzStage2_length (hloaded ▸ hext) hnew h).trans_le hmax

/-- The array for a `.clear` file is as long as the file just where the pool rents exactly. -/
theorem writeAt_contents_eq_iff (pool : ArrayPool) (data : List UInt8) :
    writeAt (pool.contents data.length) 0 data = data ↔ rentLength data.length = data.length := by
  have hroom : data.length ≤ rentLength data.length := le_rentLength _
  constructor
  · intro h
    have hlength := congrArg List.length h
    rwa [writeAt_length (by rw [pool.contents_length]; omega), pool.contents_length] at hlength
  · intro h
    rw [writeAt, List.drop_eq_nil_of_le (by rw [pool.contents_length]; omega)]
    simp

/-- With a framed file, all depends on the array for the data of the `.clear` file. -/
theorem recovers_iff_of_framed (hext : ext ≠ ".clear")
    (hcontent : files (dir, filename ++ ext) = some content) (hframed : Framed content slices)
    (hfits : content.length ≤ arrayMaxLength) (hne : slices ≠ []) :
    Recovers pool files dir filename ext slices ↔
      rentLength slices.flatten.length = slices.flatten.length := by
  have hflatten : slices.flatten.length ≤ arrayMaxLength := by
    rw [hframed.length, framedLength_eq] at hfits
    omega
  obtain ⟨record, hanalyz, hslices, hmem⟩ :=
    analyzFile_framed pool dir filename files hext hframed hfits hne
  obtain ⟨recordClear, hanalyzClear, hmemClear⟩ := analyzFile_clear pool dir filename
    (Function.update files (dir, filename ++ ext ++ ".clear") (some slices.flatten)) hflatten
  rw [← writeAt_contents_eq_iff pool, ← hmemClear]
  constructor
  · rintro ⟨content', record', files', hcontent', hanalyz', -, hmem', clear, recordClear', files'',
      hclear, hanalyzClear', hsame⟩
    cases hcontent.symm.trans hcontent'
    cases hanalyz.symm.trans hanalyz'
    rw [Function.update_self] at hclear
    cases hclear
    cases hanalyzClear.symm.trans hanalyzClear'
    rw [hsame, hmem]
  · intro hexact
    exact ⟨content, record, _, hcontent, hanalyz, hslices, hmem, slices.flatten, recordClear, _,
      Function.update_self _ _ _, hanalyzClear, hexact.trans hmem.symm⟩

theorem recovers_iff (pool : ArrayPool) (stream : StreamForRecording) (side : RecordSide)
    (calls : List RecordCall) :
    Recovers pool (recordAll stream calls).files stream.dir stream.filename side.ext
        (recorded side calls) ↔
      recorded side calls ≠ [] ∧ framedLength (recorded side calls) ≤ arrayMaxLength ∧
        rentLength (recorded side calls).flatten.length = (recorded side calls).flatten.length := by
  have hholds := recordAll_holds stream side calls
  have hext := side.ext_ne_clear
  constructor
  · intro h
    have hall := h
    obtain ⟨content, record, files', hcontent, hanalyz, hslices, -⟩ := h
    have hfits := analyzFile_length hext hanalyz
    rw [hslices] at hfits
    have hne : recorded side calls ≠ [] := by
      intro hnil
      rw [hholds.none hnil] at hcontent
      cases hcontent
    obtain ⟨content', hcontent', hframed⟩ := hholds.some hne
    refine ⟨hne, hfits, ?_⟩
    exact (recovers_iff_of_framed hext hcontent' hframed (hframed.length.trans_le hfits) hne).mp
      hall
  · rintro ⟨hne, hfits, hexact⟩
    obtain ⟨content, hcontent, hframed⟩ := hholds.some hne
    exact (recovers_iff_of_framed hext hcontent hframed (hframed.length.trans_le hfits) hne).mpr
      hexact

/-- A single byte, recorded as the writer. -/
theorem not_recovers_byte :
    let stream : StreamForRecording := ⟨"Records", "1 id", 0, 0⟩
    ¬ Recovers .zeroed (recordAll stream [⟨.writer, [0x2A], 0⟩]).files "Records" "1 id" ".writer"
      [[0x2A]] := by
  intro stream h
  have hexact := ((recovers_iff .zeroed stream .writer [⟨.writer, [0x2A], 0⟩]).mp h).2.2
  exact absurd hexact (by decide)

end DecodingProxy.Recording
