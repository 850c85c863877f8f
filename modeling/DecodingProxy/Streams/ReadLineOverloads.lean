import DecodingProxy.Http.ReadFields
import DecodingProxy.Lib.Splits
import DecodingProxy.Streams.ExtensionsForStream

/-!
# The overloads of `ReadLine`

One returns a string only, one fills an array of characters, and one an array of bytes. All of them
take the byte behind a carriage return together with it, so on every stream they cut the same line,
which is the first one unless an odd number of carriage returns stands at its end.
-/

namespace DecodingProxy.Streams
open DecodingProxy.Arrays DecodingProxy.Http DecodingProxy.Runs DecodingProxy.Runtime
open DecodingProxy.Splits

/-- The loop of `ReadLine(maxLength)`, with `turns` left. With none left it returns the empty
string. -/
def readTextFrom (maxLength : ℕ) : ℕ → NetworkStream → Str → Except Fault (Str × NetworkStream)
  | 0, s, _ => .ok ([], s)
  | turns + 1, s, buffer => do
    let (b, s) := s.readByte
    let more ← setNext maxLength buffer b
    if b = some CR then
      let (c, s) := s.readByte
      if c = some LF then .ok (buffer, s)
      else
        let more ← setNext maxLength more c
        readTextFrom maxLength turns s more
    else readTextFrom maxLength turns s more

def readText (s : NetworkStream) (maxLength : ℕ) : Except Fault (Str × NetworkStream) :=
  readTextFrom maxLength maxLength s []

/-- `buffer[i] = (char)b`. -/
def storeChar (buffer : Str) (i : ℕ) (b : Option UInt8) : Except Fault Str :=
  if i < buffer.length then .ok (writeAt buffer i [(b.map UInt8.toUInt16).getD 0xFFFF])
  else .error (.raised .indexOutOfRange)

/-- What `ReadLine(buffer)` returns, with the array and the stream behind it. -/
structure CharsRead where
  text : Str
  bufferLength : ℕ
  buffer : Str
  stream : NetworkStream

/-- The loop of `ReadLine(buffer)` from index `i` on, while `turns` indexes are left. -/
def readCharsFrom : ℕ → NetworkStream → Str → ℕ → Except Fault CharsRead
  | 0, _, buffer, _ =>
    .error (.thrown .overflow s!"Buffer size:{buffer.length} was not enoguh")
  | turns + 1, s, buffer, i => do
    let (b, s) := s.readByte
    let buffer ← storeChar buffer i b
    if b = some CR then
      let (c, s) := s.readByte
      let buffer ← storeChar buffer (i + 1) c
      if c = some LF then
        .ok { text := buffer.take i, bufferLength := i + 1, buffer, stream := s }
      else readCharsFrom (turns - 1) s buffer (i + 2)
    else readCharsFrom turns s buffer (i + 1)
termination_by turns => turns

def readChars (s : NetworkStream) (buffer : Str) : Except Fault CharsRead :=
  readCharsFrom buffer.length s buffer 0

/-! ### The line that is cut -/

/-- The text up to a line end among the pieces of the stream, and what follows it. -/
def cutLine : List UInt8 → Option (List UInt8 × List UInt8)
  | [] => none
  | [_] => none
  | b :: next :: rest =>
    if b = CR then
      if next = LF then some ([], rest)
      else (cutLine rest).map fun line => (CR :: next :: line.1, line.2)
    else (cutLine (next :: rest)).map fun line => (b :: line.1, line.2)

theorem cutLine_single {b : UInt8} (hb : b ≠ CR) (rest : List UInt8) :
    cutLine (b :: rest) = (cutLine rest).map fun line => (b :: line.1, line.2) := by
  cases rest with
  | nil => rfl
  | cons next rest => rw [cutLine, if_neg hb]

theorem cutLine_pair {next : UInt8} (hnext : next ≠ LF) (rest : List UInt8) :
    cutLine (CR :: next :: rest) =
      (cutLine rest).map fun line => (CR :: next :: line.1, line.2) := by
  rw [cutLine, if_pos rfl, if_neg hnext]

theorem cutLine_lineEnd (rest : List UInt8) : cutLine (CRLF ++ rest) = some ([], rest) := by
  rfl

/-- How many carriage returns stand at the end. -/
def returnsAtEnd (text : List UInt8) : ℕ := (text.reverse.takeWhile (· = CR)).length

theorem returnsAtEnd_concat (text : List UInt8) (b : UInt8) :
    returnsAtEnd (text ++ [b]) = if b = CR then returnsAtEnd text + 1 else 0 := by
  rw [returnsAtEnd, List.reverse_append, List.reverse_singleton, List.singleton_append,
    List.takeWhile_cons]
  by_cases hb : b = CR <;> simp [hb, returnsAtEnd]

/-- Behind whole pieces the number of carriage returns is even. -/
theorem even_returnsAtEnd (pieces : List Piece) : Even (returnsAtEnd (flatten pieces)) := by
  induction pieces using List.reverseRecOn with
  | nil => exact Even.zero
  | append_singleton pieces piece ih =>
    have hflatten : flatten (pieces ++ [piece]) = flatten pieces ++ piece.bytes := by
      simp [flatten]
    rw [hflatten]
    cases piece with
    | single b hb =>
      rw [Piece.bytes, returnsAtEnd_concat, if_neg hb]
      exact Even.zero
    | pair next =>
      have hpair : flatten pieces ++ Piece.bytes (.pair next) =
          flatten pieces ++ [CR] ++ [next] := by
        simp [Piece.bytes]
      rw [hpair, returnsAtEnd_concat, returnsAtEnd_concat, if_pos rfl]
      split_ifs
      · exact (ih.add_one).add_one
      · exact Even.zero

/-- The text of a line that is cut falls into pieces. -/
theorem exists_pieces_of_cutLine {bytes text rest : List UInt8}
    (h : cutLine bytes = some (text, rest)) : ∃ pieces, text = flatten pieces := by
  induction bytes using cutLine.induct generalizing text rest with
  | case1 => cases h
  | case2 => cases h
  | case3 rest' =>
    cases h
    exact ⟨[], rfl⟩
  | case4 next rest' hnext ih =>
    rw [cutLine_pair hnext] at h
    obtain ⟨⟨line, left⟩, hline, heq⟩ := Option.map_eq_some_iff.mp h
    obtain ⟨pieces, hpieces⟩ := ih hline
    cases heq
    exact ⟨.pair next :: pieces, congrArg (fun l => CR :: next :: l) hpieces⟩
  | case5 b next rest' hb ih =>
    rw [cutLine_single hb] at h
    obtain ⟨⟨line, left⟩, hline, heq⟩ := Option.map_eq_some_iff.mp h
    obtain ⟨pieces, hpieces⟩ := ih hline
    cases heq
    exact ⟨.single b hb :: pieces, congrArg (b :: ·) hpieces⟩

theorem cutLine_pieces {pieces : List Piece} {bytes following : List UInt8}
    (hat : FirstAt CRLF bytes (flatten pieces) following) :
    cutLine bytes = some (flatten pieces, following) := by
  induction pieces generalizing bytes with
  | nil =>
    rw [hat.eq]
    exact cutLine_lineEnd following
  | cons piece pieces ih =>
    have hflatten : flatten (piece :: pieces) = piece.bytes ++ flatten pieces := rfl
    rw [hflatten] at hat ⊢
    have hrest := ih hat.drop
    have hbytes : bytes = piece.bytes ++ bytes.drop piece.bytes.length := by
      rw [hat.eq]
      simp
    generalize bytes.drop piece.bytes.length = left at hbytes hrest
    cases piece with
    | single b hb =>
      rw [hbytes]
      change cutLine (b :: left) = _
      rw [cutLine_single hb, hrest]
      rfl
    | pair next =>
      have hnext : next ≠ LF := by
        rintro rfl
        apply hat.first 0 (by simp [Piece.bytes])
        rw [List.drop_zero, hbytes]
        exact List.prefix_append CRLF _
      rw [hbytes]
      change cutLine (CR :: next :: left) = _
      rw [cutLine_pair hnext, hrest]
      rfl

/-- The line that is cut is the first one just when the number of carriage returns at its end is
even. -/
theorem cutLine_iff {bytes text following : List UInt8} (hat : FirstAt CRLF bytes text following) :
    cutLine bytes = some (text, following) ↔ Even (returnsAtEnd text) := by
  constructor
  · intro hcut
    obtain ⟨pieces, rfl⟩ := exists_pieces_of_cutLine hcut
    exact even_returnsAtEnd pieces
  · intro heven
    obtain ⟨pieces, hwhole | hover⟩ := exists_pieces text
    · rw [hwhole] at hat ⊢
      exact cutLine_pieces hat
    · rw [hover, returnsAtEnd_concat, if_pos rfl] at heven
      exact absurd heven (Nat.not_even_iff_odd.mpr (even_returnsAtEnd pieces).add_one)

/-! ### Loops over the pieces of a stream -/

/-- A loop that takes one piece in a turn. `put` takes a byte, `pair` a carriage return with what is
behind it, and `found` a line end. `room q n` says that `n` more bytes and a line end fit. -/
structure PieceLoop (σ β : Type) where
  run : ℕ → NetworkStream → σ → Except Fault β
  put : σ → Option UInt8 → Except Fault σ
  pair : σ → Option UInt8 → Except Fault σ
  found : σ → NetworkStream → Except Fault β
  behind : ℕ → ℕ
  view : σ → Str
  room : σ → ℕ → Prop
  text : β → Str
  stream : β → NetworkStream
  byte : ∀ turns q {s}, s.bytes.head? ≠ some CR → ∃ s₁, s₁.bytes = s.bytes.tail ∧
    run (turns + 1) s q = put q s.bytes.head? >>= run turns s₁
  carriage : ∀ turns q {s rest}, s.bytes = CR :: rest → ∃ s₂, s₂.bytes = rest.tail ∧
    run (turns + 1) s q =
      if rest.head? = some LF then found q s₂ else pair q rest.head? >>= run (behind turns) s₂
  le_behind : ∀ turns, turns - 1 ≤ behind turns
  behind_le : ∀ turns, behind turns ≤ turns
  stopped : ∀ {s q r}, run 0 s q = .ok r → text r = []
  view_put : ∀ {q q' b}, put q (some b) = .ok q' → view q' = view q ++ [b.toUInt16]
  view_pair : ∀ {q q' b}, pair q (some b) = .ok q' →
    view q' = view q ++ [CR.toUInt16, b.toUInt16]
  found_inv : ∀ {q s r}, found q s = .ok r → text r = view q ∧ stream r = s
  room_put : ∀ {q n}, room q (n + 1) → ∀ b, ∃ q', put q (some b) = .ok q' ∧ room q' n
  room_pair : ∀ {q n}, room q (n + 2) → ∀ b, ∃ q', pair q (some b) = .ok q' ∧ room q' n
  room_found : ∀ {q}, room q 0 → ∀ s, ∃ r, found q s = .ok r

namespace PieceLoop
variable {σ β : Type} (l : PieceLoop σ β)

/-- What is returned is empty, or the line that is cut. -/
theorem run_inv {turns : ℕ} {s : NetworkStream} {q : σ} {r : β} (h : l.run turns s q = .ok r) :
    l.text r = [] ∨ ∃ line, cutLine s.bytes = some (line, (l.stream r).bytes) ∧
      l.text r = l.view q ++ chars line := by
  induction turns using Nat.strong_induction_on generalizing s q with
  | _ turns ih =>
    cases turns with
    | zero => exact .inl (l.stopped h)
    | succ turns =>
      -- behind the end of the stream no line is cut
      have hover : ∀ {n s₁ q'}, n ≤ turns → s₁.bytes = [] → l.run n s₁ q' = .ok r →
          l.text r = [] := by
        intro n s₁ q' hn hs₁ hrun
        rcases ih n (Nat.lt_succ_of_le hn) hrun with hnil | ⟨line, hcut, -⟩
        · exact hnil
        · rw [hs₁] at hcut
          cases hcut
      by_cases hcr : s.bytes.head? = some CR
      · obtain ⟨rest, hbytes⟩ := List.head?_eq_some_iff.mp hcr
        obtain ⟨s₂, hs₂, hrun⟩ := l.carriage turns q hbytes
        rw [hrun] at h
        cases rest with
        | nil =>
          rw [if_neg (by nofun)] at h
          obtain ⟨q', -, h⟩ := do_ok_iff.mp h
          exact .inl (hover (l.behind_le turns) hs₂ h)
        | cons next rest =>
          rw [List.head?_cons] at h
          rw [List.tail_cons] at hs₂
          by_cases hlf : next = LF
          · rw [if_pos (congrArg some hlf)] at h
            obtain ⟨htext, hstream⟩ := l.found_inv h
            refine .inr ⟨[], ?_, by simpa [chars] using htext⟩
            rw [hbytes, hlf, hstream, hs₂]
            rfl
          · rw [if_neg fun heq => hlf (Option.some.inj heq)] at h
            obtain ⟨q', hq', h⟩ := do_ok_iff.mp h
            rcases ih _ (Nat.lt_succ_of_le (l.behind_le turns)) h with hnil | ⟨line, hcut, htext⟩
            · exact .inl hnil
            · rw [hs₂] at hcut
              refine .inr ⟨CR :: next :: line, ?_, ?_⟩
              · rw [hbytes, cutLine_pair hlf, hcut]
                rfl
              · rw [htext, l.view_pair hq', List.append_assoc]
                rfl
      · obtain ⟨s₁, hs₁, hrun⟩ := l.byte turns q hcr
        rw [hrun] at h
        obtain ⟨q', hq', h⟩ := do_ok_iff.mp h
        cases hbytes : s.bytes with
        | nil =>
          rw [hbytes] at hs₁
          exact .inl (hover le_rfl hs₁ h)
        | cons b rest =>
          rw [hbytes] at hcr hs₁ hq'
          rw [List.tail_cons] at hs₁
          have hb : b ≠ CR := fun heq => hcr (congrArg some heq)
          rcases ih turns (Nat.lt_succ_self _) h with hnil | ⟨line, hcut, htext⟩
          · exact .inl hnil
          · rw [hs₁] at hcut
            refine .inr ⟨b :: line, ?_, ?_⟩
            · rw [cutLine_single hb, hcut]
              rfl
            · rw [htext, l.view_put hq', List.append_assoc]
              rfl

/-- The line that is cut is returned, if there is room for it. -/
theorem run_ok {bytes line rest : List UInt8} (hcut : cutLine bytes = some (line, rest))
    {turns : ℕ} {s : NetworkStream} {q : σ} (hs : s.bytes = bytes) (hturns : line.length < turns)
    (hroom : l.room q line.length) :
    ∃ r, l.run turns s q = .ok r ∧ l.text r = l.view q ++ chars line ∧
      (l.stream r).bytes = rest := by
  induction bytes using cutLine.induct generalizing line rest turns s q with
  | case1 => cases hcut
  | case2 => cases hcut
  | case3 rest' =>
    cases hcut
    obtain ⟨turns, rfl⟩ := Nat.exists_eq_succ_of_ne_zero (Nat.ne_zero_of_lt hturns)
    obtain ⟨s₂, hs₂, hrun⟩ := l.carriage turns q hs
    obtain ⟨r, hr⟩ := l.room_found hroom s₂
    obtain ⟨htext, hstream⟩ := l.found_inv hr
    refine ⟨r, ?_, by simpa [chars] using htext, by rw [hstream, hs₂, List.tail_cons]⟩
    rw [hrun, List.head?_cons, if_pos rfl, hr]
  | case4 next rest' hnext ih =>
    rw [cutLine_pair hnext] at hcut
    obtain ⟨⟨line', left⟩, hline, heq⟩ := Option.map_eq_some_iff.mp hcut
    cases heq
    dsimp only [List.length_cons] at hturns hroom
    obtain ⟨turns, rfl⟩ := Nat.exists_eq_succ_of_ne_zero (Nat.ne_zero_of_lt hturns)
    obtain ⟨s₂, hs₂, hrun⟩ := l.carriage turns q hs
    obtain ⟨q', hq', hroom'⟩ := l.room_pair hroom next
    have hbehind := l.le_behind turns
    have hleft : line'.length < l.behind turns := by omega
    obtain ⟨r, hr, htext, hrest⟩ := ih hline hs₂ hleft hroom'
    refine ⟨r, ?_, ?_, hrest⟩
    · rw [hrun, List.head?_cons, if_neg fun heq => hnext (Option.some.inj heq), do_of_ok hq', hr]
    · rw [htext, l.view_pair hq', List.append_assoc]
      rfl
  | case5 b next rest' hb ih =>
    rw [cutLine_single hb] at hcut
    obtain ⟨⟨line', left⟩, hline, heq⟩ := Option.map_eq_some_iff.mp hcut
    cases heq
    dsimp only [List.length_cons] at hturns hroom
    obtain ⟨turns, rfl⟩ := Nat.exists_eq_succ_of_ne_zero (Nat.ne_zero_of_lt hturns)
    have hhead : s.bytes.head? ≠ some CR := by
      rw [hs, List.head?_cons]
      exact fun heq => hb (Option.some.inj heq)
    obtain ⟨s₁, hs₁, hrun⟩ := l.byte turns q hhead
    obtain ⟨q', hq', hroom'⟩ := l.room_put hroom b
    rw [hs, List.tail_cons] at hs₁
    obtain ⟨r, hr, htext, hrest⟩ := ih hline hs₁ (Nat.lt_of_succ_lt_succ hturns) hroom'
    refine ⟨r, ?_, ?_, hrest⟩
    · rw [hrun, hs, List.head?_cons, do_of_ok hq', hr]
    · rw [htext, l.view_put hq', List.append_assoc]
      rfl

/-- The first line is returned, and just it is taken from the stream. -/
def TakesLine (l : PieceLoop σ β) (result : Except Fault β) (text following : List UInt8) : Prop :=
  ∃ r, result = .ok r ∧ l.text r = chars text ∧ (l.stream r).bytes = following

theorem takesLine_iff {s : NetworkStream} {text following : List UInt8}
    (hat : FirstAt CRLF s.bytes text following) (turns : ℕ) (q : σ) (hview : l.view q = [])
    (hturns : text.length < turns) (hroom : l.room q text.length) :
    l.TakesLine (l.run turns s q) text following ↔ Even (returnsAtEnd text) := by
  constructor
  · intro ⟨r, hrun, htext, hrest⟩
    rcases l.run_inv hrun with hnil | ⟨line, hcut, hline⟩
    · have hempty : text = [] := by
        rw [hnil] at htext
        exact List.map_eq_nil_iff.mp htext.symm
      rw [hempty]
      exact Even.zero
    · rw [hview, List.nil_append, htext] at hline
      have hsame : text = line :=
        List.map_injective_iff.mpr (fun _ _ => UInt8.toUInt16_inj.mp) hline
      rw [← hsame, hrest] at hcut
      exact (cutLine_iff hat).mp hcut
  · intro heven
    obtain ⟨r, hrun, htext, hrest⟩ :=
      l.run_ok ((cutLine_iff hat).mpr heven) rfl hturns hroom
    refine ⟨r, hrun, ?_, hrest⟩
    rw [htext, hview, List.nil_append]

end PieceLoop

/-! ### The overloads -/

theorem setNext_ok {maxLength : ℕ} {span : Str} (h : span.length < maxLength) (b : UInt8) :
    setNext maxLength span (some b) = .ok (span ++ [b.toUInt16]) :=
  if_pos h

theorem setNext_inv {maxLength : ℕ} {span more : Str} {b : UInt8}
    (h : setNext maxLength span (some b) = .ok more) : more = span ++ [b.toUInt16] := by
  unfold setNext at h
  split_ifs at h
  exact (Except.ok.inj h).symm

def textLoop (maxLength : ℕ) : PieceLoop Str (Str × NetworkStream) where
  run := readTextFrom maxLength
  put buffer b := setNext maxLength buffer b
  pair buffer c := do
    let more ← setNext maxLength buffer (some CR)
    setNext maxLength more c
  found buffer s := do
    let _ ← setNext maxLength buffer (some CR)
    .ok (buffer, s)
  behind turns := turns
  view buffer := buffer
  room buffer n := buffer.length + n < maxLength
  text := Prod.fst
  stream := Prod.snd
  byte := by
    intro turns q s hhead
    obtain ⟨hb, hs⟩ := s.readByte_eq
    refine ⟨s.readByte.2, hs, ?_⟩
    rw [← hb] at hhead
    rw [readTextFrom, ← hb]
    simp only [if_neg hhead]
  carriage := by
    intro turns q s rest hbytes
    obtain ⟨s₁, hread, hs₁⟩ := NetworkStream.readByte_cons hbytes
    obtain ⟨hc, hs₂⟩ := s₁.readByte_eq
    refine ⟨s₁.readByte.2, by rw [hs₂, hs₁], ?_⟩
    rw [readTextFrom, hread]
    simp only [if_true]
    rw [← hs₁, ← hc]
    by_cases hlf : s₁.readByte.1 = some LF
    · simp only [if_pos hlf]
    · simp only [if_neg hlf, bind_assoc]
  le_behind turns := Nat.sub_le _ _
  behind_le turns := le_rfl
  stopped := by
    intro s q r h
    cases h
    rfl
  view_put h := setNext_inv h
  view_pair := by
    intro q q' b h
    obtain ⟨more, hmore, h⟩ := do_ok_iff.mp h
    rw [setNext_inv h, setNext_inv hmore, List.append_assoc]
    rfl
  found_inv := by
    intro q s r h
    obtain ⟨more, -, h⟩ := do_ok_iff.mp h
    cases h
    exact ⟨rfl, rfl⟩
  room_put := by
    intro q n hroom b
    refine ⟨_, setNext_ok (by omega) b, ?_⟩
    simp only [List.length_append, List.length_singleton]
    omega
  room_pair := by
    intro q n hroom b
    refine ⟨q ++ [CR.toUInt16] ++ [b.toUInt16], ?_, ?_⟩
    · rw [do_of_ok (setNext_ok (by omega) CR), setNext_ok (by simp; omega)]
    · simp only [List.length_append, List.length_singleton]
      omega
  room_found := by
    intro q hroom s
    exact ⟨_, do_of_ok (setNext_ok hroom CR)⟩

theorem storeChar_ok {buffer : Str} {i : ℕ} (h : i < buffer.length) (b : UInt8) :
    ∃ after, storeChar buffer i (some b) = .ok after ∧ Wrote buffer after i [b.toUInt16] :=
  ⟨_, if_pos h, wrote_writeAt h⟩

theorem storeChar_inv {buffer after : Str} {i : ℕ} {b : UInt8}
    (h : storeChar buffer i (some b) = .ok after) :
    i < buffer.length ∧ Wrote buffer after i [b.toUInt16] := by
  unfold storeChar at h
  split_ifs at h with hi
  cases h
  exact ⟨hi, wrote_writeAt hi⟩

def charsLoop : PieceLoop (Str × ℕ) CharsRead where
  run turns s q := readCharsFrom turns s q.1 q.2
  put q b := do
    let buffer ← storeChar q.1 q.2 b
    .ok (buffer, q.2 + 1)
  pair q c := do
    let buffer ← storeChar q.1 q.2 (some CR)
    let buffer ← storeChar buffer (q.2 + 1) c
    .ok (buffer, q.2 + 2)
  found q s := do
    let buffer ← storeChar q.1 q.2 (some CR)
    let buffer ← storeChar buffer (q.2 + 1) (some LF)
    .ok { text := buffer.take q.2, bufferLength := q.2 + 1, buffer, stream := s }
  behind turns := turns - 1
  view q := q.1.take q.2
  room q n := q.2 + n + 2 ≤ q.1.length
  text := CharsRead.text
  stream := CharsRead.stream
  byte := by
    intro turns q s hhead
    obtain ⟨hb, hs⟩ := s.readByte_eq
    refine ⟨s.readByte.2, hs, ?_⟩
    rw [← hb] at hhead
    rw [readCharsFrom, ← hb]
    simp only [if_neg hhead, bind_assoc]
    rfl
  carriage := by
    intro turns q s rest hbytes
    obtain ⟨s₁, hread, hs₁⟩ := NetworkStream.readByte_cons hbytes
    obtain ⟨hc, hs₂⟩ := s₁.readByte_eq
    refine ⟨s₁.readByte.2, by rw [hs₂, hs₁], ?_⟩
    rw [readCharsFrom, hread]
    simp only [if_true]
    rw [← hs₁, ← hc]
    by_cases hlf : s₁.readByte.1 = some LF
    · simp only [hlf, if_true]
    · simp only [if_neg hlf, bind_assoc]
      rfl
  le_behind turns := le_rfl
  behind_le turns := Nat.sub_le _ _
  stopped := by
    intro s q r h
    rw [readCharsFrom] at h
    cases h
  view_put := by
    intro q q' b h
    obtain ⟨buffer, hbuffer, h⟩ := do_ok_iff.mp h
    cases h
    exact (storeChar_inv hbuffer).2.take
  view_pair := by
    intro q q' b h
    obtain ⟨first, hfirst, h⟩ := do_ok_iff.mp h
    obtain ⟨buffer, hbuffer, h⟩ := do_ok_iff.mp h
    cases h
    exact ((storeChar_inv hfirst).2.trans (storeChar_inv hbuffer).2).take
  found_inv := by
    intro q s r h
    obtain ⟨first, hfirst, h⟩ := do_ok_iff.mp h
    obtain ⟨buffer, hbuffer, h⟩ := do_ok_iff.mp h
    cases h
    obtain ⟨hi, hwrote⟩ := storeChar_inv hfirst
    exact ⟨(hwrote.trans (storeChar_inv hbuffer).2).take_front hi.le, rfl⟩
  room_put := by
    intro q n hroom b
    obtain ⟨after, hafter, hwrote⟩ := storeChar_ok (show q.2 < q.1.length by omega) b
    refine ⟨_, do_of_ok hafter, ?_⟩
    rw [hwrote.length]
    dsimp only
    omega
  room_pair := by
    intro q n hroom b
    obtain ⟨first, hfirst, hwrote⟩ := storeChar_ok (show q.2 < q.1.length by omega) CR
    obtain ⟨after, hafter, hback⟩ :=
      storeChar_ok (show q.2 + 1 < first.length by rw [hwrote.length]; omega) b
    refine ⟨(after, q.2 + 2), by rw [do_of_ok hfirst, do_of_ok hafter], ?_⟩
    rw [hback.length, hwrote.length]
    dsimp only
    omega
  room_found := by
    intro q hroom s
    obtain ⟨first, hfirst, hwrote⟩ := storeChar_ok (show q.2 < q.1.length by omega) CR
    obtain ⟨after, hafter, -⟩ :=
      storeChar_ok (show q.2 + 1 < first.length by rw [hwrote.length]; omega) LF
    exact ⟨_, by rw [do_of_ok hfirst, do_of_ok hafter]⟩

/-- The array, the index and the characters so far. -/
structure LineState where
  buffer : List UInt8
  i : ℕ
  span : Str

namespace LineState
variable (maxLength : ℕ) (q : LineState)

def put (b : Option UInt8) : Except Fault LineState := do
  let buffer ← store q.buffer q.i b
  let more ← setNext maxLength q.span b
  .ok ⟨buffer, q.i + 1, more⟩

def pair (c : Option UInt8) : Except Fault LineState := do
  let buffer ← store q.buffer q.i (some CR)
  let more ← setNext maxLength q.span (some CR)
  let buffer ← store buffer (q.i + 1) c
  let more ← setNext maxLength more c
  .ok ⟨buffer, q.i + 2, more⟩

def found (s : NetworkStream) : Except Fault LineRead := do
  let buffer ← store q.buffer q.i (some CR)
  let _ ← setNext maxLength q.span (some CR)
  let buffer ← store buffer (q.i + 1) (some LF)
  .ok { text := q.span, bufferLength := q.span.length + 2, buffer, stream := s }

/-- The loop of `ReadLine(maxLength, buffer, startIndex)`. -/
def readFrom (turns : ℕ) (s : NetworkStream) : Except Fault LineRead :=
  readLineFrom maxLength turns s q.buffer q.i q.span

theorem readFrom_byte (turns : ℕ) {s : NetworkStream} (hhead : s.bytes.head? ≠ some CR) :
    ∃ s₁, s₁.bytes = s.bytes.tail ∧ q.readFrom maxLength (turns + 1) s =
      q.put maxLength s.bytes.head? >>= fun q => q.readFrom maxLength turns s₁ := by
  obtain ⟨hb, hs⟩ := s.readByte_eq
  refine ⟨s.readByte.2, hs, ?_⟩
  rw [← hb] at hhead
  rw [readFrom, readLineFrom, ← hb, put]
  simp only [if_neg hhead, bind_assoc]
  rfl

theorem readFrom_carriage (turns : ℕ) {s : NetworkStream} {rest : List UInt8}
    (hbytes : s.bytes = CR :: rest) :
    ∃ s₂, s₂.bytes = rest.tail ∧ q.readFrom maxLength (turns + 1) s =
      if rest.head? = some LF then q.found maxLength s₂
      else q.pair maxLength rest.head? >>= fun q => q.readFrom maxLength (turns - 1) s₂ := by
  obtain ⟨s₁, hread, hs₁⟩ := NetworkStream.readByte_cons hbytes
  obtain ⟨hc, hs₂⟩ := s₁.readByte_eq
  refine ⟨s₁.readByte.2, by rw [hs₂, hs₁], ?_⟩
  rw [readFrom, readLineFrom, hread]
  simp only [if_true]
  rw [← hs₁, ← hc]
  by_cases hlf : s₁.readByte.1 = some LF
  · simp only [hlf, if_true]
    rfl
  · simp only [if_neg hlf, pair, bind_assoc]
    rfl

theorem put_span {maxLength : ℕ} {q q' : LineState} {b : UInt8}
    (h : q.put maxLength (some b) = .ok q') : q'.span = q.span ++ [b.toUInt16] := by
  obtain ⟨buffer, -, h⟩ := do_ok_iff.mp h
  obtain ⟨more, hmore, h⟩ := do_ok_iff.mp h
  cases h
  exact setNext_inv hmore

theorem pair_span {maxLength : ℕ} {q q' : LineState} {b : UInt8}
    (h : q.pair maxLength (some b) = .ok q') :
    q'.span = q.span ++ [CR.toUInt16, b.toUInt16] := by
  obtain ⟨first, -, h⟩ := do_ok_iff.mp h
  obtain ⟨cr, hcr, h⟩ := do_ok_iff.mp h
  obtain ⟨buffer, -, h⟩ := do_ok_iff.mp h
  obtain ⟨more, hmore, h⟩ := do_ok_iff.mp h
  cases h
  dsimp only
  rw [setNext_inv hmore, setNext_inv hcr, List.append_assoc]
  rfl

theorem found_inv {maxLength : ℕ} {q : LineState} {s : NetworkStream} {r : LineRead}
    (h : q.found maxLength s = .ok r) : r.text = q.span ∧ r.stream = s := by
  obtain ⟨first, -, h⟩ := do_ok_iff.mp h
  obtain ⟨cr, -, h⟩ := do_ok_iff.mp h
  obtain ⟨buffer, -, h⟩ := do_ok_iff.mp h
  cases h
  exact ⟨rfl, rfl⟩

/-- `n` more bytes and a line end fit. -/
def Room (maxLength : ℕ) (q : LineState) (n : ℕ) : Prop :=
  q.span.length + n < maxLength ∧ q.i + n + 2 ≤ q.buffer.length

theorem Room.put {maxLength n : ℕ} {q : LineState} (h : q.Room maxLength (n + 1)) (b : UInt8) :
    ∃ q', q.put maxLength (some b) = .ok q' ∧ q'.Room maxLength n := by
  obtain ⟨hspan, hbuffer⟩ := h
  obtain ⟨after, hafter, hwrote⟩ := store_ok (show q.i < q.buffer.length by omega) b
  refine ⟨⟨after, q.i + 1, q.span ++ [b.toUInt16]⟩, ?_, ?_, ?_⟩
  · rw [LineState.put, do_of_ok hafter, do_of_ok (setNext_ok (by omega) b)]
  · simp only [List.length_append, List.length_singleton]
    omega
  · simp only [hwrote.length]
    omega

theorem Room.pair {maxLength n : ℕ} {q : LineState} (h : q.Room maxLength (n + 2)) (b : UInt8) :
    ∃ q', q.pair maxLength (some b) = .ok q' ∧ q'.Room maxLength n := by
  obtain ⟨hspan, hbuffer⟩ := h
  obtain ⟨first, hfirst, hwrote⟩ := store_ok (show q.i < q.buffer.length by omega) CR
  obtain ⟨after, hafter, hback⟩ :=
    store_ok (show q.i + 1 < first.length by rw [hwrote.length]; omega) b
  refine ⟨⟨after, q.i + 2, q.span ++ [CR.toUInt16] ++ [b.toUInt16]⟩, ?_, ?_, ?_⟩
  · rw [LineState.pair, do_of_ok hfirst, do_of_ok (setNext_ok (by omega) CR), do_of_ok hafter,
      do_of_ok (setNext_ok (by simp; omega) b)]
  · simp only [List.length_append, List.length_singleton]
    omega
  · simp only [hback.length, hwrote.length]
    omega

theorem Room.found {maxLength : ℕ} {q : LineState} (h : q.Room maxLength 0) (s : NetworkStream) :
    ∃ r, q.found maxLength s = .ok r := by
  obtain ⟨hspan, hbuffer⟩ := h
  obtain ⟨first, hfirst, hwrote⟩ := store_ok (show q.i < q.buffer.length by omega) CR
  obtain ⟨after, hafter, -⟩ :=
    store_ok (show q.i + 1 < first.length by rw [hwrote.length]; omega) LF
  refine ⟨{ text := q.span, bufferLength := q.span.length + 2, buffer := after, stream := s }, ?_⟩
  rw [LineState.found, do_of_ok hfirst, do_of_ok (setNext_ok hspan CR), do_of_ok hafter]

theorem readFrom_zero {maxLength : ℕ} {q : LineState} {s : NetworkStream} {r : LineRead} :
    q.readFrom maxLength 0 s ≠ .ok r := by
  intro h
  rw [readFrom, readLineFrom] at h
  cases h

end LineState

def lineLoop (maxLength : ℕ) : PieceLoop LineState LineRead where
  run turns s q := q.readFrom maxLength turns s
  put := LineState.put maxLength
  pair := LineState.pair maxLength
  found := LineState.found maxLength
  behind turns := turns - 1
  view q := q.span
  room := LineState.Room maxLength
  text := LineRead.text
  stream := LineRead.stream
  byte turns q _ hhead := q.readFrom_byte maxLength turns hhead
  carriage turns q _ _ hbytes := q.readFrom_carriage maxLength turns hbytes
  le_behind _ := le_rfl
  behind_le _ := Nat.sub_le _ _
  stopped h := absurd h LineState.readFrom_zero
  view_put h := LineState.put_span h
  view_pair h := LineState.pair_span h
  found_inv h := LineState.found_inv h
  room_put h b := h.put b
  room_pair h b := h.pair b
  room_found h s := h.found s

/-- With room for the first line, each overload returns it, and takes just it from the stream, if
and only if an even number of carriage returns stands at its end. -/
theorem readLine_overloads_iff {s : NetworkStream} {text following : List UInt8}
    (hat : FirstAt CRLF s.bytes text following) {maxChars : ℕ} (hchars : text.length < maxChars)
    (charBuffer : Str) (hfits : text.length + 2 ≤ charBuffer.length) (maxLength startIndex : ℕ)
    (buffer : List UInt8) (hlength : text.length < maxLength)
    (hlast : startIndex + maxLength < 2 ^ 31)
    (hroom : startIndex + text.length + 2 ≤ buffer.length) :
    ((∃ r, readText s maxChars = .ok r ∧ r.1 = chars text ∧ r.2.bytes = following) ↔
        Even (returnsAtEnd text)) ∧
      ((∃ r, readChars s charBuffer = .ok r ∧ r.text = chars text ∧ r.stream.bytes = following) ↔
        Even (returnsAtEnd text)) ∧
      ((∃ r, readLine s maxLength buffer startIndex = .ok r ∧ r.text = chars text ∧
          r.stream.bytes = following) ↔ Even (returnsAtEnd text)) := by
  have hturns : (int32 (startIndex + maxLength) - startIndex).toNat = maxLength := by
    rw [int32_of_range (by omega) (by omega)]
    omega
  refine ⟨?_, ?_, ?_⟩
  · exact (textLoop maxChars).takesLine_iff hat maxChars [] rfl hchars (by simpa [textLoop])
  · exact charsLoop.takesLine_iff hat _ (charBuffer, 0) rfl (by omega)
      (by simpa [charsLoop] using hfits)
  · rw [readLine, hturns]
    exact (lineLoop maxLength).takesLine_iff hat maxLength ⟨buffer, startIndex, []⟩ rfl hlength
      ⟨by simpa using hlength, hroom⟩

/-- `a\rb\n`, in two pieces. -/
def loneStream : NetworkStream := ⟨[[0x61, CR, 0x62], [LF, CR, LF, 0x63]], by decide⟩

theorem readLine_overloads_iff_lone :
    (∃ r, readText loneStream 5 = .ok r ∧ r.1 = chars [0x61, CR, 0x62, LF] ∧
        r.2.bytes = [0x63]) ↔
      Even (returnsAtEnd [0x61, CR, 0x62, LF]) := by
  have hat : FirstAt CRLF loneStream.bytes [0x61, CR, 0x62, LF] [0x63] := ⟨by decide, by decide⟩
  exact (readLine_overloads_iff hat (by decide) (List.replicate 6 0) (by decide) 5 0
    (List.replicate 6 0) (by decide) (by decide) (by decide)).1

def doubledStream : NetworkStream := ⟨[[CR, CR, LF, 0x61, CR, LF]], by decide⟩

/-- All three overloads run past the line end of CR CR LF. -/
theorem readLine_overloads_overrun :
    (¬ ∃ r, readText doubledStream 9 = .ok r ∧ r.1 = chars [CR] ∧
        r.2.bytes = [0x61, CR, LF]) ∧
      (¬ ∃ r, readChars doubledStream (List.replicate 9 0) = .ok r ∧ r.text = chars [CR] ∧
        r.stream.bytes = [0x61, CR, LF]) ∧
      ¬ ∃ r, readLine doubledStream 9 (List.replicate 9 0) 0 = .ok r ∧ r.text = chars [CR] ∧
        r.stream.bytes = [0x61, CR, LF] := by
  have hat : FirstAt CRLF doubledStream.bytes [CR] [0x61, CR, LF] := ⟨by decide, by decide⟩
  have hodd : ¬ Even (returnsAtEnd [CR]) := by decide
  refine ⟨?_, ?_, ?_⟩
  · intro h
    have hroom : (textLoop 9).room [] [CR].length := show 0 + 1 < 9 by decide
    exact hodd (((textLoop 9).takesLine_iff hat 9 [] rfl (by decide) hroom).mp h)
  · intro h
    have hroom : charsLoop.room (List.replicate 9 0, 0) [CR].length := show 0 + 1 + 2 ≤ 9 by decide
    exact hodd ((charsLoop.takesLine_iff hat 9 (List.replicate 9 0, 0) rfl (by decide) hroom).mp h)
  · intro h
    have hroom : (lineLoop 9).room ⟨List.replicate 9 0, 0, []⟩ [CR].length :=
      show 0 + 1 < 9 ∧ 0 + 1 + 2 ≤ 9 by decide
    have hturns : (int32 ((0 : ℕ) + (9 : ℕ)) - (0 : ℕ)).toNat = 9 := by decide
    rw [readLine, hturns] at h
    exact hodd (((lineLoop 9).takesLine_iff hat 9 _ rfl (by decide) hroom).mp h)

end DecodingProxy.Streams
