import DecodingProxy.Http.HttpFieldsV11
import DecodingProxy.Http.Messages
import DecodingProxy.Lib.Runs
import Mathlib.Data.List.Chain

/-!
# `HttpFieldsV11.ReadFields`

The fields are read byte by byte, and behind a carriage return the next byte is taken with it
whatever it is. So the text falls into pieces, and the line ends are found among these.
-/

namespace DecodingProxy.Http
open DecodingProxy.Runtime DecodingProxy.Runs

/-- The object with its text, and the variables of `ReadFields`. -/
structure FieldsReading where
  fields : HttpFieldsV11
  sb : Str
  tempIndexLineStart : ℕ
  isEndSequence : Bool := false

namespace FieldsReading

def append (c : UInt16) (r : FieldsReading) : FieldsReading := { r with sb := r.sb ++ [c] }

def lineRestart (culture : Culture) (r : FieldsReading) : Except Fault FieldsReading :=
  if r.sb.length < r.tempIndexLineStart + 2 then .error (.raised .argumentOutOfRange)
  else
    let line := (r.sb.drop r.tempIndexLineStart).take (r.sb.length - r.tempIndexLineStart - 2)
    .ok { r with
      fields := { r.fields with lines := r.fields.lines ++ [culture.toLowerInvariant line] }
      tempIndexLineStart := r.sb.length }

/-- The loop. At the end of the stream `Read` gives nothing, again and again. -/
def loop (culture : Culture) (r : FieldsReading) :
    List UInt8 → Except Halt (FieldsReading × List UInt8)
  | [] => .error .diverges
  | [_] => .error .diverges
  | i :: next :: stream =>
    if i = CR then
      let r := (r.append i.toUInt16).append next.toUInt16
      if next = LF then do
        let r ← (r.lineRestart culture).mapError .threw
        if r.isEndSequence then .ok (r, stream)
        else loop culture { r with isEndSequence := true } stream
      else loop culture r stream
    else loop culture { r.append i.toUInt16 with isEndSequence := false } (next :: stream)

end FieldsReading

/-- The object with the fields that were read, and what is left of the stream. -/
def readFields (culture : Culture) (fields : HttpFieldsV11) (sb : Str) (stream : List UInt8) :
    Except Halt (FieldsReading × List UInt8) :=
  FieldsReading.loop culture { fields, sb, tempIndexLineStart := sb.length } stream

/-- A stream up to its first two line ends, and what follows them. -/
structure HeaderStream where
  text : List UInt8
  following : List UInt8
  first : ¬ CRLF ++ CRLF <:+: text ++ CRLF ++ [CR]

def HeaderStream.bytes (h : HeaderStream) : List UInt8 := h.text ++ (CRLF ++ CRLF ++ h.following)

/-- Just the bytes up to the two line ends are consumed. -/
def StopsAtEnd (culture : Culture) (fields : HttpFieldsV11) (sb : Str) (h : HeaderStream) : Prop :=
  ∃ r, readFields culture fields sb h.bytes = .ok (r, h.following)

/-! ### Pieces -/

/-- A carriage return with the byte behind it, or another byte. -/
inductive Piece
  | single (b : UInt8) (h : b ≠ CR)
  | pair (next : UInt8)

namespace Piece

def bytes : Piece → List UInt8
  | single b _ => [b]
  | pair next => [CR, next]

def lineEnd : Piece := .pair LF

/-- A pair that is no line end. -/
def isOther : Piece → Bool
  | single _ _ => false
  | pair next => next ≠ LF

end Piece

def flatten (pieces : List Piece) : List UInt8 := pieces.flatMap Piece.bytes

/-- Without the pairs that are no line ends, no two line ends follow one another. -/
def Separated (pieces : List Piece) : Prop :=
  (pieces.filter (!·.isOther)).IsChain fun p q => ¬ (p = .lineEnd ∧ q = .lineEnd)

/-- A list of bytes falls into pieces, perhaps with a carriage return left over. -/
theorem exists_pieces (bytes : List UInt8) :
    ∃ pieces, bytes = flatten pieces ∨ bytes = flatten pieces ++ [CR] := by
  induction hn : bytes.length using Nat.strong_induction_on generalizing bytes with
  | _ n ih =>
    subst hn
    match bytes with
    | [] => exact ⟨[], .inl rfl⟩
    | i :: rest =>
      by_cases hi : i = CR
      · subst hi
        match rest with
        | [] => exact ⟨[], .inr rfl⟩
        | next :: rest =>
          have hlt : rest.length < (CR :: next :: rest).length := by
            simp only [List.length_cons]
            omega
          obtain ⟨pieces, hpieces⟩ := ih rest.length hlt rest rfl
          refine ⟨.pair next :: pieces, ?_⟩
          rcases hpieces with hwhole | hover
          · exact .inl (congrArg (fun l => CR :: next :: l) hwhole)
          · exact .inr (congrArg (fun l => CR :: next :: l) hover)
      · obtain ⟨pieces, hpieces⟩ := ih rest.length (by simp) rest rfl
        refine ⟨.single i hi :: pieces, ?_⟩
        rcases hpieces with hwhole | hover
        · exact .inl (congrArg (i :: ·) hwhole)
        · exact .inr (congrArg (i :: ·) hover)

/-- Whether the last line end has only other pairs behind it, unless two line ends were found. -/
def endSequence : Bool → List Piece → Option Bool
  | isEnd, [] => some isEnd
  | _, .single _ _ :: pieces => endSequence false pieces
  | isEnd, .pair next :: pieces =>
    if next = LF then if isEnd then none else endSequence true pieces
    else endSequence isEnd pieces

theorem endSequence_append (isEnd : Bool) (pieces pieces' : List Piece) :
    endSequence isEnd (pieces ++ pieces') =
      (endSequence isEnd pieces).bind fun isEnd => endSequence isEnd pieces' := by
  induction pieces generalizing isEnd with
  | nil => rfl
  | cons piece pieces ih =>
    cases piece with
    | single b hb => exact ih false
    | pair next =>
      rw [List.cons_append, endSequence, endSequence]
      split
      · cases isEnd with
        | false => exact ih true
        | true => rfl
      · exact ih isEnd

theorem separated_cons_single (b : UInt8) (hb : b ≠ CR) (pieces : List Piece) :
    Separated (.single b hb :: pieces) ↔ Separated pieces := by
  simp [Separated, Piece.isOther, Piece.lineEnd, List.isChain_cons]

theorem separated_lineEnd_single (b : UInt8) (hb : b ≠ CR) (pieces : List Piece) :
    Separated (.lineEnd :: .single b hb :: pieces) ↔ Separated pieces := by
  simp [Separated, Piece.isOther, Piece.lineEnd, List.isChain_cons]

theorem not_separated_lineEnds (pieces : List Piece) :
    ¬ Separated (.lineEnd :: .lineEnd :: pieces) := by
  simp [Separated, Piece.isOther, Piece.lineEnd, List.isChain_cons]

theorem separated_cons_other {next : UInt8} (hnext : next ≠ LF) (pieces pieces' : List Piece) :
    Separated (pieces ++ .pair next :: pieces') ↔ Separated (pieces ++ pieces') := by
  simp [Separated, Piece.isOther, hnext]

theorem separated_iff_endSequence (isEnd : Bool) (pieces : List Piece) :
    Separated (if isEnd then .lineEnd :: pieces else pieces) ↔
      (endSequence isEnd pieces).isSome = true := by
  induction pieces generalizing isEnd with
  | nil => cases isEnd <;> simp [Separated, endSequence, Piece.isOther, Piece.lineEnd]
  | cons piece pieces ih =>
    cases piece with
    | single b hb =>
      cases isEnd with
      | false => exact (separated_cons_single b hb pieces).trans (ih false)
      | true => exact (separated_lineEnd_single b hb pieces).trans (ih false)
    | pair next =>
      by_cases hnext : next = LF
      · subst hnext
        cases isEnd with
        | false => exact ih true
        | true =>
          refine iff_of_false (not_separated_lineEnds pieces) ?_
          simp [endSequence]
      · rw [endSequence, if_neg hnext, ← ih isEnd]
        cases isEnd with
        | false => exact separated_cons_other hnext [] pieces
        | true => exact separated_cons_other hnext [.lineEnd] pieces

/-! ### The loop over pieces -/

namespace FieldsReading
variable (culture : Culture)

theorem loop_single {b : UInt8} (hb : b ≠ CR) (r : FieldsReading) (rest : List UInt8) :
    loop culture r (b :: rest) =
      loop culture { r.append b.toUInt16 with isEndSequence := false } rest := by
  cases rest with
  | nil => rfl
  | cons next rest => rw [loop, if_neg hb]

theorem loop_other {next : UInt8} (hnext : next ≠ LF) (r : FieldsReading) (rest : List UInt8) :
    loop culture r (CR :: next :: rest) =
      loop culture ((r.append CR.toUInt16).append next.toUInt16) rest := by
  rw [loop, if_pos rfl, if_neg hnext]

/-- The variables stand inside the text. -/
def InBounds (r : FieldsReading) : Prop := r.tempIndexLineStart ≤ r.sb.length

theorem InBounds.append {r : FieldsReading} (h : r.InBounds) (c : UInt16) :
    (r.append c).InBounds :=
  h.trans (by simp [FieldsReading.append])

theorem loop_lineEnd {r : FieldsReading} (h : r.InBounds) :
    ∃ r' : FieldsReading, r'.InBounds ∧ ∀ rest, loop culture r (CR :: LF :: rest) =
      if r.isEndSequence then .ok (r', rest)
      else loop culture { r' with isEndSequence := true } rest := by
  have hlong : ¬ ((r.append CR.toUInt16).append LF.toUInt16).sb.length <
      ((r.append CR.toUInt16).append LF.toUInt16).tempIndexLineStart + 2 := by
    have := h
    simp only [InBounds] at this
    simp only [FieldsReading.append, List.length_append, List.length_singleton]
    omega
  obtain ⟨r', hr'⟩ : ∃ r', lineRestart culture
      ((r.append CR.toUInt16).append LF.toUInt16) = .ok r' :=
    ⟨_, if_neg hlong⟩
  have hkept : r'.isEndSequence = r.isEndSequence ∧ r'.InBounds := by
    rw [lineRestart, if_neg hlong] at hr'
    cases hr'
    exact ⟨rfl, le_rfl⟩
  refine ⟨r', hkept.2, fun rest => ?_⟩
  rw [loop, if_pos rfl, if_pos rfl, hr', ← hkept.1]
  rfl

/-- What is left of the stream is shorter. -/
theorem loop_left {r r' : FieldsReading} {stream left : List UInt8}
    (h : loop culture r stream = .ok (r', left)) : left.length < stream.length := by
  induction hn : stream.length using Nat.strong_induction_on generalizing r stream with
  | _ n ih =>
    subst hn
    match stream with
    | [] => cases h
    | [_] => cases h
    | i :: next :: rest =>
      rw [loop] at h
      split at h
      · have hrest : rest.length < (i :: next :: rest).length := by
          simp only [List.length_cons]
          omega
        split at h
        · obtain ⟨m, _, hm⟩ := do_ok_iff.mp h
          split at hm
          · cases hm
            exact hrest
          · exact (ih _ hrest hm rfl).trans hrest
        · exact (ih _ hrest h rfl).trans hrest
      · have hrest : (next :: rest).length < (i :: next :: rest).length := by simp
        exact (ih _ hrest h rfl).trans hrest

/-- Pieces with their line ends apart are read to their end. -/
theorem loop_pieces {r : FieldsReading} (hr : r.InBounds) {pieces : List Piece} {isEnd : Bool}
    (h : endSequence r.isEndSequence pieces = some isEnd) :
    ∃ r' : FieldsReading, r'.InBounds ∧ r'.isEndSequence = isEnd ∧
      ∀ rest, loop culture r (flatten pieces ++ rest) = loop culture r' rest := by
  induction pieces generalizing r with
  | nil => exact ⟨r, hr, Option.some.inj h, fun _ => rfl⟩
  | cons piece pieces ih =>
    cases piece with
    | single b hb =>
      obtain ⟨r', hr', hend, hloop⟩ :=
        ih (r := { r.append b.toUInt16 with isEndSequence := false }) (hr.append _) h
      exact ⟨r', hr', hend, fun rest => (loop_single culture hb r _).trans (hloop rest)⟩
    | pair next =>
      rw [endSequence] at h
      split at h
      · next hnext =>
        subst hnext
        split at h
        · cases h
        · next hfirst =>
          obtain ⟨m, hm, hline⟩ := loop_lineEnd culture hr
          obtain ⟨r', hr', hend, hloop⟩ := ih (r := { m with isEndSequence := true }) hm h
          refine ⟨r', hr', hend, fun rest => ?_⟩
          rw [show flatten (.pair LF :: pieces) ++ rest = CR :: LF :: (flatten pieces ++ rest)
            from rfl, hline, if_neg hfirst, hloop]
      · next hnext =>
        obtain ⟨r', hr', hend, hloop⟩ := ih ((hr.append _).append _) h
        exact ⟨r', hr', hend, fun rest => (loop_other culture hnext r _).trans (hloop rest)⟩

/-- Where two line ends follow one another the loop stops before the rest. -/
theorem loop_stops {r : FieldsReading} (hr : r.InBounds) {pieces : List Piece}
    (h : endSequence r.isEndSequence pieces = none) (rest : List UInt8) :
    ∃ r' left, loop culture r (flatten pieces ++ rest) = .ok (r', left ++ rest) := by
  induction pieces generalizing r with
  | nil => cases h
  | cons piece pieces ih =>
    cases piece with
    | single b hb =>
      obtain ⟨r', left, hloop⟩ :=
        ih (r := { r.append b.toUInt16 with isEndSequence := false }) (hr.append _) h
      exact ⟨r', left, (loop_single culture hb r _).trans hloop⟩
    | pair next =>
      rw [endSequence] at h
      split at h
      · next hnext =>
        subst hnext
        obtain ⟨m, hm, hline⟩ := loop_lineEnd culture hr
        rw [show flatten (.pair LF :: pieces) ++ rest = CR :: LF :: (flatten pieces ++ rest)
          from rfl, hline]
        split at h
        · next hsecond => exact ⟨m, flatten pieces, if_pos hsecond⟩
        · next hfirst =>
          rw [if_neg hfirst]
          exact ih (r := { m with isEndSequence := true }) hm h
      · next hnext =>
        obtain ⟨r', left, hloop⟩ := ih ((hr.append _).append _) h
        exact ⟨r', left, (loop_other culture hnext r _).trans hloop⟩

end FieldsReading

section
variable (culture : Culture) (fields : HttpFieldsV11) (sb : Str)

/-- If two line ends follow one another in the pieces, more than the following bytes is left. -/
theorem HeaderStream.separated_of_stopsAtEnd {h : HeaderStream}
    (hstops : StopsAtEnd culture fields sb h) {pieces : List Piece} (rest : List UInt8)
    (hbytes : h.bytes = flatten pieces ++ rest) (hrest : h.following.length < rest.length) :
    (endSequence false pieces).isSome = true := by
  obtain ⟨r, hr⟩ := hstops
  cases hend : endSequence false pieces with
  | some isEnd => rfl
  | none =>
    obtain ⟨r', left, hloop⟩ := FieldsReading.loop_stops culture
      (r := { fields, sb, tempIndexLineStart := sb.length }) le_rfl hend rest
    rw [readFields, hbytes, hloop] at hr
    have hleft : left ++ rest = h.following := congrArg Prod.snd (Except.ok.inj hr)
    have := congrArg List.length hleft
    simp at this
    omega

theorem endSequence_concat_lineEnd {pieces : List Piece}
    (h : (endSequence false (pieces ++ [.lineEnd])).isSome = true) :
    endSequence false (pieces ++ [.lineEnd]) = some true := by
  rw [endSequence_append] at h ⊢
  cases hend : endSequence false pieces with
  | none =>
    rw [hend] at h
    cases h
  | some isEnd =>
    rw [hend] at h
    cases isEnd with
    | false => rfl
    | true => cases h

/-- The text falls into pieces, and no two line ends follow one another in it and the first of
the two line ends behind it. -/
theorem stopsAtEnd_iff (h : HeaderStream) :
    StopsAtEnd culture fields sb h ↔
      ∃ pieces, h.text = flatten pieces ∧ Separated (pieces ++ [.lineEnd]) := by
  constructor
  · intro hstops
    obtain ⟨pieces, hwhole | hover⟩ := exists_pieces h.text
    · refine ⟨pieces, hwhole, ?_⟩
      apply (separated_iff_endSequence false _).mpr
      apply h.separated_of_stopsAtEnd culture fields sb hstops (CRLF ++ h.following)
      · simp [HeaderStream.bytes, hwhole, flatten, Piece.bytes, Piece.lineEnd, CRLF]
      · rw [List.length_append]
        exact Nat.lt_add_of_pos_left (by decide)
    · -- The last carriage return takes that of the line end with it.
      exfalso
      let longer := pieces ++ [.pair CR, .single LF (by decide), .lineEnd]
      have hbytes : h.bytes = flatten longer ++ h.following := by
        simp [longer, HeaderStream.bytes, hover, flatten, Piece.bytes, Piece.lineEnd, CRLF]
      have hsome : (endSequence false pieces).isSome = true := by
        apply h.separated_of_stopsAtEnd culture fields sb hstops
          ([CR, CR, LF, CR, LF] ++ h.following)
        · simp [HeaderStream.bytes, hover, flatten, CRLF]
        · rw [List.length_append]
          exact Nat.lt_add_of_pos_left (by decide)
      obtain ⟨isEnd, hend⟩ := Option.isSome_iff_exists.mp hsome
      have hover : endSequence false longer = some true := by
        rw [endSequence_append, hend]
        rfl
      obtain ⟨m, _, _, hm⟩ := FieldsReading.loop_pieces culture
        (r := { fields, sb, tempIndexLineStart := sb.length }) le_rfl hover
      obtain ⟨r, hr⟩ := hstops
      rw [readFields, hbytes, hm] at hr
      exact absurd (FieldsReading.loop_left culture hr) (lt_irrefl _)
  · rintro ⟨pieces, hwhole, hseparated⟩
    have hend := endSequence_concat_lineEnd ((separated_iff_endSequence false _).mp hseparated)
    obtain ⟨m, hm, hflag, hloop⟩ := FieldsReading.loop_pieces culture
      (r := { fields, sb, tempIndexLineStart := sb.length }) le_rfl hend
    have hbytes : h.bytes = flatten (pieces ++ [.lineEnd]) ++ (CR :: LF :: h.following) := by
      simp [HeaderStream.bytes, hwhole, flatten, Piece.bytes, Piece.lineEnd, CRLF]
    obtain ⟨r, _, hline⟩ := FieldsReading.loop_lineEnd culture hm
    refine ⟨r, ?_⟩
    rw [readFields, hbytes, hloop, hline, if_pos hflag]

end

/-- `A`, a line end, a lone carriage return before `B`, and the two line ends. -/
def crowdedStream : HeaderStream where
  text := [0x41, CR, LF, CR, 0x42]
  following := []
  first := by decide

/-- The first of the two line ends is taken for the second one. -/
theorem not_stopsAtEnd :
    (∃ r, readFields .invariantGlobalization {} [] crowdedStream.bytes = .ok (r, [CR, LF])) ∧
      ¬ StopsAtEnd .invariantGlobalization {} [] crowdedStream := by
  have hread : ∃ r, readFields .invariantGlobalization {} [] crowdedStream.bytes =
      .ok (r, [CR, LF]) := by
    obtain ⟨⟨r, left⟩, hr, hleft⟩ := ok_of_toOption_map
      (x := readFields .invariantGlobalization {} [] crowdedStream.bytes) (f := Prod.snd)
      (c := [CR, LF]) (by decide)
    cases hleft
    exact ⟨r, hr⟩
  refine ⟨hread, ?_⟩
  intro hstops
  obtain ⟨_, hr⟩ := hread
  obtain ⟨_, hend⟩ := hstops
  rw [hr] at hend
  cases hend

end DecodingProxy.Http
