import DecodingProxy.Cryptography.ParserForTls12

/-!
# `ParseFrames`: the loop over a capture

The loop reads records until the reader gives up. It should return the longest prefix
made of whole records and leave the rest; where the data end inside a record it throws
instead, and so it does on a last handshake record with fewer than four payload bytes.
-/

namespace DecodingProxy.Cryptography
open DecodingProxy.Prefixes DecodingProxy.Runs DecodingProxy.Runtime

namespace TlsFrameReader

theorem tryReadFrame_inv {reader reader' : TlsFrameReader} {frame : Option TlsFrame}
    (h : reader.tryReadFrame = .ok (reader', frame)) :
    (frame = none ∧ reader' = reader ∧ (reader.slice = [] ∨ Refused reader.slice)) ∨
      ∃ record f, frame = some f ∧ f.dataWholeFrame = record ∧
        reader.slice = record ++ reader'.slice ∧ IsValidRecord record ∧
        HandshakeReadable record reader'.slice := by
  obtain ⟨⟨rest, result⟩, hparse, heq⟩ := map_ok_iff.mp h
  cases heq
  rcases ParserForTls12.tryParse_inv hparse with ⟨rfl, rfl, hstop⟩ | ⟨record, f, rfl, hf, hrest⟩
  · exact .inl ⟨rfl, rfl, hstop⟩
  · exact .inr ⟨record, .ofParseResult f, rfl, hf, hrest⟩

theorem tryReadFrame_lt {reader reader' : TlsFrameReader} {frame : TlsFrame}
    (h : reader.tryReadFrame = .ok (reader', some frame)) :
    reader'.slice.length < reader.slice.length := by
  rcases tryReadFrame_inv h with ⟨hnone, -, -⟩ | ⟨record, f, -, -, hslice, hrecord, -⟩
  · cases hnone
  · have h5 := hrecord.1.five_le
    have hsize : 0 < sizeRecord := by decide
    rw [hslice, List.length_append]
    omega

end TlsFrameReader

/-- `TlsPlayerWithProxy.ParseFrames`: the reader after the loop and the list it fills. -/
def parseFrames (reader : TlsFrameReader) (results : List TlsFrame) :
    Except Fault (TlsFrameReader × List TlsFrame) :=
  match _h : reader.tryReadFrame with
  | .error fault => .error fault
  | .ok (reader, none) => .ok (reader, results)
  | .ok (reader, some frame) => parseFrames reader (results ++ [frame])
termination_by reader.slice.length
decreasing_by exact TlsFrameReader.tryReadFrame_lt _h

def wholeFrames (frames : List TlsFrame) : List UInt8 :=
  (frames.map TlsFrame.dataWholeFrame).flatten

/-- The loop ends without an exception, with the longest prefix that consists of whole
records, and leaves what follows it. -/
def ParsesExactly (data : List UInt8) : Prop :=
  ∃ reader frames, parseFrames ⟨data⟩ [] = .ok (reader, frames) ∧
    LongestPrefix IsValidRecord data (wholeFrames frames) ∧
    data = wholeFrames frames ++ reader.slice

/-- Whole records, and then nothing, the last of them no handshake record of fewer than
four bytes; or whole records and then a whole header of an unknown type. -/
def Parsable (data : List UInt8) : Prop :=
  ∃ (records : List (List UInt8)) (rest : List UInt8),
    (∀ r ∈ records, IsValidRecord r) ∧ data = records.flatten ++ rest ∧
    (rest = [] ∧ (∀ last, records.getLast? = some last → HandshakeReadable last []) ∨
      Refused rest)

theorem parseFrames_of_error {reader : TlsFrameReader} {results : List TlsFrame} {fault : Fault}
    (h : reader.tryReadFrame = .error fault) : parseFrames reader results = .error fault := by
  rw [parseFrames]
  split <;> simp_all

theorem parseFrames_of_none {reader reader' : TlsFrameReader} {results : List TlsFrame}
    (h : reader.tryReadFrame = .ok (reader', none)) :
    parseFrames reader results = .ok (reader', results) := by
  rw [parseFrames]
  split <;> simp_all

theorem parseFrames_of_some {reader reader' : TlsFrameReader} {results : List TlsFrame}
    {frame : TlsFrame} (h : reader.tryReadFrame = .ok (reader', some frame)) :
    parseFrames reader results = parseFrames reader' (results ++ [frame]) := by
  rw [parseFrames]
  split <;> simp_all

theorem parseFrames_inv {reader reader' : TlsFrameReader} {results frames : List TlsFrame}
    (h : parseFrames reader results = .ok (reader', frames)) :
    ∃ read, frames = results ++ read ∧
      (∀ f ∈ read, IsValidRecord f.dataWholeFrame) ∧
      reader.slice = wholeFrames read ++ reader'.slice ∧
      (reader'.slice = [] ∧
        (∀ last, (read.map TlsFrame.dataWholeFrame).getLast? = some last →
          HandshakeReadable last []) ∨ Refused reader'.slice) := by
  induction reader, results using parseFrames.induct with
  | case1 reader results fault herror =>
    rw [parseFrames_of_error herror] at h
    cases h
  | case2 reader results stopped hnone =>
    rw [parseFrames_of_none hnone] at h
    cases h
    rcases TlsFrameReader.tryReadFrame_inv hnone with ⟨-, rfl, hstop⟩ | ⟨_, _, hsome, -⟩
    · exact ⟨[], by simp, by simp, by simp [wholeFrames], by simpa using hstop⟩
    · cases hsome
  | case3 reader results next frame hsome ih =>
    rw [parseFrames_of_some hsome] at h
    obtain ⟨read, rfl, hvalid, hslice, hstop⟩ := ih h
    rcases TlsFrameReader.tryReadFrame_inv hsome with
      ⟨hnone, -, -⟩ | ⟨record, f, hf, rfl, hdata, hrecord, hread⟩
    · cases hnone
    · cases hf
      refine ⟨frame :: read, by simp, ?_, ?_, ?_⟩
      · intro g hg
        rcases List.mem_cons.mp hg with rfl | hg
        · exact hrecord
        · exact hvalid g hg
      · simp [wholeFrames, hdata, hslice]
      · refine hstop.imp_left fun ⟨hnil, hlast⟩ => ⟨hnil, fun last h => ?_⟩
        cases read with
        | nil =>
          have hnext : next.slice = [] := by simpa [wholeFrames, hnil] using hslice
          obtain rfl : frame.dataWholeFrame = last := by simpa using h
          rwa [hnext] at hread
        | cons g read =>
          apply hlast last
          simpa using h

theorem HandshakeReadable.of_tail {record tail : List UInt8} (h : sizeRecord ≤ tail.length) :
    HandshakeReadable record tail := by
  intro _
  have hsize : sizeHandshakeHeader ≤ sizeRecord := by decide
  rw [List.length_append]
  omega

theorem Refused.five_le {data : List UInt8} (h : Refused data) : sizeRecord ≤ data.length := by
  obtain ⟨header, hs, -⟩ := h
  obtain ⟨b0, b1, b2, b3, b4, rest, rfl, -⟩ := TlsRecord.toStruct_ok_iff.mp hs
  simp [sizeRecord]

theorem parseFrames_ok {data : List UInt8} (h : Parsable data) (results : List TlsFrame) :
    ∃ reader frames, parseFrames ⟨data⟩ results = .ok (reader, frames) := by
  obtain ⟨records, rest, hvalid, rfl, hend⟩ := h
  induction records generalizing results with
  | nil =>
    have hnone : TlsFrameReader.tryReadFrame ⟨rest⟩ = .ok (⟨rest⟩, none) := by
      rcases hend with ⟨rfl, -⟩ | hrefused
      · rfl
      · simp [TlsFrameReader.tryReadFrame, ParserForTls12.tryParse_refused hrefused, Except.map]
    exact ⟨_, _, parseFrames_of_none hnone⟩
  | cons record records ih =>
    have hread : HandshakeReadable record (records.flatten ++ rest) := by
      rcases hend with ⟨rfl, hlast⟩ | hrefused
      · cases records with
        | nil => exact hlast record rfl
        | cons r records =>
          have h5 := (hvalid r (by simp)).1.five_le
          exact .of_tail (by simp only [List.flatten_cons, List.length_append]; omega)
      · have h5 := hrefused.five_le
        exact .of_tail (by rw [List.length_append]; omega)
    obtain ⟨result, hparse, -⟩ :=
      ParserForTls12.tryParse_record (hvalid record (by simp)) hread
    have hsome : TlsFrameReader.tryReadFrame ⟨(record :: records).flatten ++ rest⟩ =
        .ok (⟨records.flatten ++ rest⟩, some (.ofParseResult result)) := by
      rw [List.flatten_cons, List.append_assoc]
      simp [TlsFrameReader.tryReadFrame, hparse, Except.map]
    rw [parseFrames_of_some hsome]
    refine ih _ (fun r hr => hvalid r (by simp [hr])) ?_
    refine hend.imp_left fun ⟨hnil, hlast⟩ => ⟨hnil, fun last h => hlast last ?_⟩
    cases records with
    | nil => simp at h
    | cons r records => simpa using h

/-! ### When the loop is exact -/

/-- `ParseFrames` is exact and total on just the data that it can read to the end. -/
theorem parsesExactly_iff (data : List UInt8) : ParsesExactly data ↔ Parsable data := by
  constructor
  · rintro ⟨reader, frames, hrun, -, -⟩
    obtain ⟨read, -, hvalid, hslice, hstop⟩ := parseFrames_inv hrun
    refine ⟨read.map TlsFrame.dataWholeFrame, reader.slice, ?_, hslice, hstop⟩
    intro r hr
    obtain ⟨f, hf, rfl⟩ := List.mem_map.mp hr
    exact hvalid f hf
  · intro h
    obtain ⟨reader, frames, hrun⟩ := parseFrames_ok h []
    obtain ⟨read, hread, hvalid, hslice, hstop⟩ := parseFrames_inv hrun
    obtain rfl : frames = read := hread
    refine ⟨reader, frames, hrun, ?_, hslice⟩
    have hparts : ∀ part ∈ frames.map TlsFrame.dataWholeFrame, IsValidRecord part := by
      intro part hpart
      obtain ⟨f, hf, rfl⟩ := List.mem_map.mp hpart
      exact hvalid f hf
    have hrest : ∀ part, IsValidRecord part → ¬ part <+: reader.slice := by
      intro part hpart
      rcases hstop with ⟨hnil, -⟩ | hrefused
      · have h5 := hpart.1.five_le
        rw [hnil, List.prefix_nil]
        rintro rfl
        exact absurd h5 (by decide)
      · exact hrefused.no_record hpart
    have hlongest := isValidRecord_prefixFree.longestPrefix hparts hrest
    rwa [← wholeFrames, ← hslice] at hlongest

/-- One byte of a header: `ToStruct` reads past the end of the data. -/
theorem not_parsesExactly_one_byte : ¬ ParsesExactly [0x16] := by
  rintro ⟨reader, frames, hrun, -, -⟩
  have hthrows : TlsFrameReader.tryReadFrame ⟨[0x16]⟩ = .error (.raised .indexOutOfRange) := rfl
  rw [parseFrames_of_error hthrows] at hrun
  cases hrun

end DecodingProxy.Cryptography
