import DecodingProxy.Http.Messages
import DecodingProxy.Lib.Searches
import DecodingProxy.Runtime.ReadOnlySequence

/-!
# `FindPosAfterEndOfHeaders`, `FindPosEndOfHeaders` and `IndexAfterRnRn`

The search for the end of the headers over the segments of a sequence keeps how much of the two
line ends it has matched, and the search in one span compares four bytes at each index.
-/

namespace DecodingProxy.Piped
open DecodingProxy.Http DecodingProxy.Runtime DecodingProxy.Searches

/-- The length of a span is an `int`. -/
abbrev ByteSpan := { bytes : List UInt8 // bytes.length < 2 ^ 31 }

/-- A sequence with the bytes of its segments. -/
structure ByteSequence where
  sequence : ReadOnlySequence
  first : List UInt8
  rest : List (List UInt8)
  first_length : first.length = sequence.first
  rest_lengths : rest.map List.length = sequence.rest

namespace ByteSequence

/-- What the enumerator goes over. -/
def memories (data : ByteSequence) : List (List UInt8) :=
  data.first.drop data.sequence.start :: data.rest

def bytes (data : ByteSequence) : List UInt8 := data.memories.flatten

theorem bytes_length (data : ByteSequence) : data.bytes.length = data.sequence.length := by
  have hstart := data.sequence.start_le
  rw [bytes, memories, List.flatten_cons, List.length_append, List.length_drop,
    List.length_flatten, data.first_length, data.rest_lengths, ReadOnlySequence.length,
    ReadOnlySequence.lengths, List.sum_cons]
  omega

end ByteSequence

def ethalon : List UInt8 := CRLF ++ CRLF

def indexAfterRnRnFrom : ℕ → List UInt8 → ℤ
  | i, b :: span =>
    match span with
    | b₁ :: b₂ :: b₃ :: _ =>
      if b = CR ∧ b₁ = LF ∧ b₂ = CR ∧ b₃ = LF then i + 4 else indexAfterRnRnFrom (i + 1) span
    | _ => -1
  | _, [] => -1

def indexAfterRnRn (span : ByteSpan) : ℤ := indexAfterRnRnFrom 0 span.1

/-- The variables of the loops over a sequence. -/
structure Scan where
  spanIndex : ℕ := 0
  position : ℤ := 0

def nextSpanIndex (spanIndex : ℕ) (b : UInt8) : ℕ :=
  if ethalon[spanIndex]? ≠ some b then
    if ethalon[0]? = some b then 1 else 0
  else spanIndex + 1

/-- The loop over one segment. `report` gives what is passed to `GetPosition` from the position
before the byte. -/
def scanSegment (report : ℤ → ℤ) : Scan → List UInt8 → ℤ ⊕ Scan
  | s, [] => .inr s
  | s, b :: seg =>
    let spanIndex := nextSpanIndex s.spanIndex b
    if spanIndex = ethalon.length then .inl (report s.position)
    else scanSegment report ⟨spanIndex, int32 (s.position + 1)⟩ seg

def scanSegments (report : ℤ → ℤ) : Scan → List (List UInt8) → ℤ ⊕ Scan
  | s, [] => .inr s
  | s, seg :: data =>
    match scanSegment report s seg with
    | .inl position => .inl position
    | .inr s => scanSegments report s data

/-- The search; `none` is the position without an object. -/
def findPos (report : ℤ → ℤ) (data : ByteSequence) : Except Fault (Option SequencePosition) :=
  match scanSegments report {} data.memories with
  | .inl position => (data.sequence.getPosition position).map some
  | .inr _ => .ok none

def findPosAfterEndOfHeaders : ByteSequence → Except Fault (Option SequencePosition) :=
  findPos fun position => int32 (position + 1)

def findPosEndOfHeaders : ByteSequence → Except Fault (Option SequencePosition) :=
  findPos fun position => position

/-! ### The search in a span -/

theorem ethalon_prefix_iff {b b₁ b₂ b₃ : UInt8} {span : List UInt8} :
    ethalon <+: b :: b₁ :: b₂ :: b₃ :: span ↔ b = CR ∧ b₁ = LF ∧ b₂ = CR ∧ b₃ = LF := by
  have hethalon : ethalon = [CR, LF, CR, LF] := rfl
  rw [hethalon]
  simp only [List.cons_prefix_cons, List.nil_prefix, and_true, eq_comm]

/-- The index is that behind the first occurrence in what is left, counted from `i`. -/
theorem indexAfterRnRnFrom_spec (i : ℕ) (span : List UInt8) :
    (∃ k, FirstEnd ethalon span k ∧ indexAfterRnRnFrom i span = (i + k : ℕ)) ∨
      ¬ ethalon <:+: span ∧ indexAfterRnRnFrom i span = -1 := by
  induction span generalizing i with
  | nil => exact .inr ⟨by decide, rfl⟩
  | cons b span ih =>
    have hshort : (b :: span).length < ethalon.length → ¬ ethalon <:+: b :: span :=
      fun hlt hinside => absurd hinside.length_le (by omega)
    match span with
    | [] => exact .inr ⟨hshort (by simp [ethalon, CRLF]), rfl⟩
    | [b₁] => exact .inr ⟨hshort (by simp [ethalon, CRLF]), rfl⟩
    | [b₁, b₂] => exact .inr ⟨hshort (by simp [ethalon, CRLF]), rfl⟩
    | b₁ :: b₂ :: b₃ :: tail =>
      rw [indexAfterRnRnFrom]
      split_ifs with hhere
      · have hfront : ethalon <+: b :: b₁ :: b₂ :: b₃ :: tail := ethalon_prefix_iff.mpr hhere
        exact .inl ⟨4, firstEnd_of_prefix hfront, by push_cast; rfl⟩
      · have hfront : ¬ ethalon <+: b :: b₁ :: b₂ :: b₃ :: tail := fun h =>
          hhere (ethalon_prefix_iff.mp h)
        rcases ih (i + 1) with ⟨k, hfirst, hk⟩ | ⟨hnot, hk⟩
        · refine .inl ⟨k + 1, hfirst.cons hfront, ?_⟩
          rw [hk, Nat.add_right_comm, Nat.add_assoc]
        · refine .inr ⟨?_, hk⟩
          rw [List.infix_cons_iff, not_or]
          exact ⟨hfront, hnot⟩

/-! ### The search in a sequence -/

variable {report : ℤ → ℤ} {s : Scan}

theorem scanSegment_append (seg rest : List UInt8) :
    scanSegment report s (seg ++ rest) =
      match scanSegment report s seg with
      | .inl position => .inl position
      | .inr s => scanSegment report s rest := by
  induction seg generalizing s with
  | nil => rfl
  | cons b seg ih =>
    rw [List.cons_append, scanSegment, scanSegment]
    split_ifs
    · rfl
    · exact ih

/-- Where the segments are cut makes no difference. -/
theorem scanSegments_eq (data : List (List UInt8)) :
    scanSegments report s data = scanSegment report s data.flatten := by
  induction data generalizing s with
  | nil => rfl
  | cons seg data ih =>
    rw [List.flatten_cons, scanSegment_append, scanSegments]
    split
    case h_1 => rfl
    case h_2 => exact ih

/-- What the variables say of the bytes so far. -/
structure Scanned (text : List UInt8) (s : Scan) : Prop where
  longest : Longest ethalon text s.spanIndex
  position : s.position = text.length
  absent : ¬ ethalon <:+: text

theorem scanned_nil : Scanned [] {} where
  longest := longest_nil (by decide)
  position := rfl
  absent := by decide

theorem ethalon_bordersAgree : BordersAgree ethalon := by decide

variable {text : List UInt8} {b : UInt8}

theorem nextSpanIndex_eq_length_iff (h : Scanned text s) :
    nextSpanIndex s.spanIndex b = ethalon.length ↔ ethalon <:+ text ++ [b] := by
  rw [h.longest.suffix_iff, nextSpanIndex]
  have hlength : ethalon.length = 4 := rfl
  split_ifs with hdiffer hfirst
  · simp [hlength, hdiffer]
  · simp [hlength, hdiffer]
  · simp [not_not.mp hdiffer]

theorem Scanned.step (h : Scanned text s) (hlength : text.length + 1 < 2 ^ 31)
    (hmore : nextSpanIndex s.spanIndex b ≠ ethalon.length) :
    Scanned (text ++ [b]) ⟨nextSpanIndex s.spanIndex b, int32 (s.position + 1)⟩ where
  longest := by
    have hlt := h.longest.lt
    dsimp only
    unfold nextSpanIndex at hmore ⊢
    by_cases hb : ethalon[s.spanIndex]? = some b
    · rw [if_neg (not_not.mpr hb)] at hmore ⊢
      exact h.longest.goOn hb (by omega)
    · rw [if_pos hb]
      exact h.longest.restart ethalon_bordersAgree hb
  position := by
    rw [h.position, List.length_append, List.length_singleton]
    push_cast
    exact int32_of_range (by omega) (by omega)
  absent := by
    rw [infix_concat_iff, not_or]
    exact ⟨h.absent, fun hends => hmore ((nextSpanIndex_eq_length_iff h).mpr hends)⟩

/-- The loop stops at the byte that ends the first occurrence. -/
theorem scanSegment_spec (report : ℤ → ℤ) (h : Scanned text s) (rest : List UInt8)
    (hlength : (text ++ rest).length < 2 ^ 31) :
    (∃ k : ℕ, FirstEnd ethalon (text ++ rest) (k + 1) ∧
        scanSegment report s rest = .inl (report k)) ∨
      ¬ ethalon <:+: text ++ rest ∧ ∃ s', scanSegment report s rest = .inr s' := by
  induction rest generalizing text s with
  | nil =>
    rw [List.append_nil]
    exact .inr ⟨h.absent, s, rfl⟩
  | cons b rest ih =>
    rw [scanSegment]
    split_ifs with hends
    · have hfirst := firstEnd_concat h.absent ((nextSpanIndex_eq_length_iff h).mp hends)
      rw [List.append_cons]
      exact .inl ⟨text.length, hfirst.append rest, by rw [h.position]⟩
    · rw [List.append_cons] at hlength ⊢
      apply ih (h.step _ hends) hlength
      simp only [List.length_append, List.length_cons] at hlength
      omega

theorem findPos_spec (report : ℤ → ℤ) (data : ByteSequence)
    (hlength : data.bytes.length < 2 ^ 31) :
    (∃ k : ℕ, FirstEnd ethalon data.bytes (k + 1) ∧
        findPos report data = (data.sequence.getPosition (report k)).map some) ∨
      ¬ ethalon <:+: data.bytes ∧ findPos report data = .ok none := by
  have hscan : scanSegments report {} data.memories = scanSegment report {} data.bytes :=
    scanSegments_eq _
  unfold findPos
  rw [hscan]
  rcases scanSegment_spec report scanned_nil data.bytes hlength with h | ⟨hnot, s, hs⟩
  · obtain ⟨k, hfirst, hk⟩ := h
    exact .inl ⟨k, hfirst, by rw [hk]⟩
  · exact .inr ⟨hnot, by rw [hs]⟩

/-- A count of bytes is passed as the position that far from the start. -/
theorem getPosition_spec {data : ByteSequence} {k : ℕ} (hle : k ≤ data.bytes.length) :
    ∃ p, (data.sequence.getPosition k).map some = .ok (some p) ∧
      (∃ b, data.sequence.slice p = .ok b) ∧ data.sequence.distance p = k := by
  rw [data.bytes_length] at hle
  obtain ⟨p, hp⟩ := ReadOnlySequence.seek_ok hle
  refine ⟨p, ?_, ReadOnlySequence.seek_spec hp⟩
  rw [ReadOnlySequence.getPosition_natCast, hp]
  rfl

/-- The three searches find something in the same byte strings. The index in the span and the first
position are just behind the first occurrence, the second position is that of its last byte. -/
theorem headerEnds_agree (span : ByteSpan) (data : ByteSequence) (hdata : data.bytes = span.1) :
    (¬ ethalon <:+: span.1 ∧ indexAfterRnRn span = -1 ∧
      findPosAfterEndOfHeaders data = .ok none ∧ findPosEndOfHeaders data = .ok none) ∨
    ∃ k, FirstEnd ethalon span.1 k ∧ indexAfterRnRn span = k ∧ ∃ after last,
      findPosAfterEndOfHeaders data = .ok (some after) ∧
      findPosEndOfHeaders data = .ok (some last) ∧
      (∃ b, data.sequence.slice after = .ok b) ∧ data.sequence.distance after = k ∧
      (∃ b, data.sequence.slice last = .ok b) ∧ data.sequence.distance last + 1 = k := by
  have hlength : data.bytes.length < 2 ^ 31 := hdata ▸ span.2
  have hflat := indexAfterRnRnFrom_spec 0 span.1
  have hafter := findPos_spec (fun position => int32 (position + 1)) data hlength
  have hlast := findPos_spec (fun position => position) data hlength
  rw [hdata] at hafter hlast
  by_cases hinside : ethalon <:+: span.1
  · right
    obtain ⟨k, hfirst, hk⟩ := hflat.resolve_right (fun h => h.1 hinside)
    obtain ⟨j, hj, hafter⟩ := hafter.resolve_right (fun h => h.1 hinside)
    obtain ⟨i, hi, hlast⟩ := hlast.resolve_right (fun h => h.1 hinside)
    obtain rfl := hfirst.unique hj
    obtain rfl := Nat.succ.inj (hi.unique hj)
    have hle : i + 1 ≤ data.bytes.length := hdata ▸ hj.le
    obtain ⟨after, hok, hslice, hdistance⟩ := getPosition_spec hle
    obtain ⟨last, hokLast, hsliceLast, hdistanceLast⟩ := getPosition_spec (Nat.le_of_succ_le hle)
    have hreport : int32 ((i : ℤ) + 1) = (i + 1 : ℕ) := by
      push_cast
      exact int32_of_range (by omega) (by omega)
    refine ⟨i + 1, hfirst, ?_, after, last, ?_, ?_, hslice, hdistance, hsliceLast, ?_⟩
    · rw [indexAfterRnRn, hk, Nat.zero_add]
    · rw [findPosAfterEndOfHeaders, hafter, hreport, hok]
    · rw [findPosEndOfHeaders, hlast, hokLast]
    · rw [hdistanceLast]
  · left
    have hnone := hflat.resolve_left (fun ⟨_, hfirst, _⟩ => hinside hfirst.infix)
    have hnoneAfter := hafter.resolve_left (fun ⟨_, hfirst, _⟩ => hinside hfirst.infix)
    have hnoneLast := hlast.resolve_left (fun ⟨_, hfirst, _⟩ => hinside hfirst.infix)
    exact ⟨hinside, hnone.2, hnoneAfter.2, hnoneLast.2⟩

/-- The two line ends are cut behind their second byte, and a carriage return comes before them. -/
theorem headerEnds_agree_cut :
    ∃ (span : ByteSpan) (data : ByteSequence), data.bytes = span.1 ∧
      indexAfterRnRn span = 5 ∧ findPosAfterEndOfHeaders data = .ok (some ⟨1, 2⟩) ∧
      findPosEndOfHeaders data = .ok (some ⟨1, 1⟩) ∧
      ((¬ ethalon <:+: span.1 ∧ indexAfterRnRn span = -1 ∧
        findPosAfterEndOfHeaders data = .ok none ∧ findPosEndOfHeaders data = .ok none) ∨
      ∃ k, FirstEnd ethalon span.1 k ∧ indexAfterRnRn span = k ∧ ∃ after last,
        findPosAfterEndOfHeaders data = .ok (some after) ∧
        findPosEndOfHeaders data = .ok (some last) ∧
        (∃ b, data.sequence.slice after = .ok b) ∧ data.sequence.distance after = k ∧
        (∃ b, data.sequence.slice last = .ok b) ∧ data.sequence.distance last + 1 = k) :=
  let span : ByteSpan := ⟨[CR, CR, LF, CR, LF, 97], by decide⟩
  let data : ByteSequence :=
    { sequence := { first := 3, rest := [3] }
      first := [CR, CR, LF]
      rest := [[CR, LF, 97]]
      first_length := rfl
      rest_lengths := rfl }
  ⟨span, data, by decide, by decide, by decide, by decide,
    headerEnds_agree span data (by decide)⟩

end DecodingProxy.Piped
