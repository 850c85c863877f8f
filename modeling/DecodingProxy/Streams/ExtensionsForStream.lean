import DecodingProxy.Http.Messages
import DecodingProxy.Lib.Arrays
import DecodingProxy.Runtime.NetworkStream

/-!
# `ExtensionsForStream`

Reads into an array from an index on. None of the methods makes the array longer; those that read
byte by byte write each byte as it comes.
-/

namespace DecodingProxy.Streams
open DecodingProxy.Arrays DecodingProxy.Http DecodingProxy.Runtime

/-- `buffer[i] = (byte)b`. -/
def store (buffer : List UInt8) (i : ℕ) (b : Option UInt8) : Except Fault (List UInt8) :=
  if i < buffer.length then .ok (writeAt buffer i [b.getD 0xFF])
  else .error (.raised .indexOutOfRange)

/-- `span[k] = (char)b` behind the characters that are set, in a span of `maxLength`. -/
def setNext (maxLength : ℕ) (span : Str) (b : Option UInt8) : Except Fault Str :=
  if span.length < maxLength then .ok (span ++ [(b.map UInt8.toUInt16).getD 0xFFFF])
  else .error (.raised .indexOutOfRange)

/-- A read at the end of the stream returns nothing, however often it is called. -/
def readForSure (s : NetworkStream) (buffer : List UInt8) (indexStart : ℕ) (leftRead : ℤ) :
    Except Halt (List UInt8 × NetworkStream) :=
  if 0 < leftRead then
    if buffer.length < indexStart + leftRead then
      .error (.threw (.raised .argumentOutOfRange))
    else
      let (bytes, next) := s.read leftRead.toNat
      let buffer := writeAt buffer indexStart bytes
      if bytes.length = leftRead then .ok (buffer, next)
      else if bytes = [] then .error .diverges
      else readForSure next buffer (indexStart + bytes.length) (leftRead - bytes.length)
  else .error (.threw (.thrown .indexOutOfRange ""))
termination_by leftRead.toNat
decreasing_by
  have hpos := List.length_pos_iff.mpr ‹bytes ≠ []›
  omega

def readCRLF (s : NetworkStream) (copyInto : List UInt8) (startIndex : ℕ) :
    Except Fault (List UInt8 × NetworkStream) := do
  let (cr, s) := s.readByte
  let (lf, s) := s.readByte
  let copyInto ← store copyInto startIndex cr
  let copyInto ← store copyInto (startIndex + 1) lf
  if cr ≠ some CR ∨ lf ≠ some LF then .error (.thrown .argumentOutOfRange "")
  else .ok (copyInto, s)

/-- What `ReadLine` returns, with the array and the stream behind it. -/
structure LineRead where
  text : Str
  bufferLength : ℕ
  buffer : List UInt8
  stream : NetworkStream

/-- The loop of `ReadLine` from index `i` on, while `turns` indexes are left, with the characters
so far. -/
def readLineFrom (maxLength : ℕ) :
    ℕ → NetworkStream → List UInt8 → ℕ → Str → Except Fault LineRead
  | 0, _, buffer, _, _ =>
    .error (.thrown .overflow s!"Buffer size:{buffer.length} was not enoguh")
  | turns + 1, s, buffer, i, span => do
    let (b, s) := s.readByte
    let buffer ← store buffer i b
    let more ← setNext maxLength span b
    if b = some CR then
      let (b, s) := s.readByte
      let buffer ← store buffer (i + 1) b
      if b = some LF then
        .ok { text := span, bufferLength := span.length + 2, buffer, stream := s }
      else
        let more ← setNext maxLength more b
        readLineFrom maxLength (turns - 1) s buffer (i + 2) more
    else readLineFrom maxLength turns s buffer (i + 1) more
termination_by turns => turns

def readLine (s : NetworkStream) (maxLength : ℕ) (buffer : List UInt8) (startIndex : ℕ) :
    Except Fault LineRead :=
  readLineFrom maxLength (int32 (startIndex + maxLength) - startIndex).toNat s buffer startIndex []

theorem store_ok {buffer : List UInt8} {i : ℕ} (h : i < buffer.length) (b : UInt8) :
    ∃ after, store buffer i (some b) = .ok after ∧ Wrote buffer after i [b] :=
  ⟨_, if_pos h, wrote_writeAt h⟩

theorem store_throws {buffer : List UInt8} {i : ℕ} (h : buffer.length ≤ i) (b : Option UInt8) :
    store buffer i b = .error (.raised .indexOutOfRange) :=
  if_neg (Nat.not_lt.mpr h)

/-! ### `ReadForSure` -/

/-- However the stream splits them, all the bytes asked for are written, and no more is read. -/
theorem readForSure_ok {s : NetworkStream} {buffer data rest : List UInt8} {indexStart : ℕ}
    (hs : s.bytes = data ++ rest) (hne : data ≠ [])
    (hroom : indexStart + data.length ≤ buffer.length) :
    ∃ after next, readForSure s buffer indexStart data.length = .ok (after, next) ∧
      Wrote buffer after indexStart data ∧ next.bytes = rest := by
  induction hn : data.length using Nat.strong_induction_on
    generalizing s buffer data indexStart with
  | _ n ih =>
    subst hn
    have hpos := List.length_pos_iff.mpr hne
    rw [readForSure, if_pos (by omega), if_neg (by omega), Int.toNat_natCast]
    have hbytes := NetworkStream.read_bytes data.length s
    have hle := NetworkStream.read_length_le data.length s
    have hread : (s.read data.length).1 ≠ [] := NetworkStream.read_ne_nil hpos (by simp [hs, hne])
    generalize s.read data.length = r at hbytes hle hread ⊢
    obtain ⟨bytes, next⟩ := r
    simp only at hbytes hle hread ⊢
    obtain ⟨left, rfl⟩ : bytes <+: data :=
      List.prefix_of_prefix_length_le ⟨_, hbytes⟩ ⟨_, hs.symm⟩ hle
    rw [hs, List.append_assoc, List.append_cancel_left_eq] at hbytes
    rw [List.length_append] at hroom hpos ⊢
    have hwrote : Wrote buffer (writeAt buffer indexStart bytes) indexStart bytes :=
      wrote_writeAt (by omega)
    by_cases hleft : left = []
    · subst hleft
      rw [if_pos (by simp), List.append_nil]
      exact ⟨_, _, rfl, hwrote, hbytes⟩
    · have hleftpos := List.length_pos_iff.mpr hleft
      have hbytespos := List.length_pos_iff.mpr hread
      have hroomLeft : indexStart + bytes.length + left.length ≤
          (writeAt buffer indexStart bytes).length := by
        rw [hwrote.length]
        omega
      obtain ⟨after, last, hcall, hafter, hlast⟩ :=
        ih left.length (by rw [List.length_append]; omega) hbytes hleft hroomLeft rfl
      refine ⟨after, last, ?_, hwrote.trans hafter, hlast⟩
      rw [if_neg (by omega), if_neg hread, ← hcall]
      congr 1
      push_cast
      omega

/-- Nothing is read for a length of which the array has no room, or for one that is not positive. -/
theorem readForSure_throws {buffer : List UInt8} {indexStart : ℕ} {leftRead : ℤ}
    (h : leftRead ≤ 0 ∨ (buffer.length : ℤ) < indexStart + leftRead) (s : NetworkStream) :
    ∃ halt, readForSure s buffer indexStart leftRead = .error halt := by
  rw [readForSure]
  split_ifs with hpos hlong
  · exact ⟨_, rfl⟩
  · omega
  · exact ⟨_, rfl⟩

/-! ### `ReadCRLF` -/

theorem readCRLF_ok {s : NetworkStream} {copyInto rest : List UInt8} {startIndex : ℕ}
    (hs : s.bytes = CRLF ++ rest) (hroom : startIndex + 2 ≤ copyInto.length) :
    ∃ after next, readCRLF s copyInto startIndex = .ok (after, next) ∧
      Wrote copyInto after startIndex CRLF ∧ next.bytes = rest := by
  obtain ⟨s₁, hcr, hs₁⟩ := NetworkStream.readByte_cons hs
  obtain ⟨s₂, hlf, hs₂⟩ := NetworkStream.readByte_cons hs₁
  obtain ⟨first, hfirst, hwrote⟩ := store_ok (show startIndex < copyInto.length by omega) CR
  obtain ⟨after, hafter, hback⟩ :=
    store_ok (show startIndex + 1 < first.length by rw [hwrote.length]; omega) LF
  refine ⟨after, s₂, ?_, hwrote.trans hback, hs₂⟩
  unfold readCRLF
  rw [hcr]
  simp only [hlf]
  rw [hfirst]
  simp only [Except.bind, bind, hafter]
  rfl

/-- Another byte where the CR is to stand. -/
theorem readCRLF_throws {s : NetworkStream} {copyInto rest : List UInt8} {startIndex : ℕ}
    {b : UInt8} (hs : s.bytes = b :: rest) (hb : b ≠ CR) :
    ∃ fault, readCRLF s copyInto startIndex = .error fault := by
  obtain ⟨s₁, hcr, -⟩ := NetworkStream.readByte_cons hs
  unfold readCRLF
  rw [hcr]
  simp only
  cases store copyInto startIndex (some b) with
  | error fault => exact ⟨fault, rfl⟩
  | ok first =>
    simp only [Except.bind, bind]
    cases store first (startIndex + 1) s₁.readByte.1 with
    | error fault => exact ⟨fault, rfl⟩
    | ok after =>
      simp only
      rw [if_pos (.inl (by simpa using hb))]
      exact ⟨_, rfl⟩

/-! ### `ReadLine` -/

theorem readLineFrom_ok {maxLength : ℕ} {text rest : List UInt8} (htext : CR ∉ text) :
    ∀ {turns : ℕ} {s : NetworkStream} {buffer : List UInt8} {i : ℕ} {span : Str},
      s.bytes = text ++ (CRLF ++ rest) → text.length < turns →
      span.length + text.length < maxLength → i + text.length + 2 ≤ buffer.length →
      ∃ line, readLineFrom maxLength turns s buffer i span = .ok line ∧
        line.text = span ++ chars text ∧ line.bufferLength = span.length + text.length + 2 ∧
        Wrote buffer line.buffer i (text ++ CRLF) ∧ line.stream.bytes = rest := by
  induction text with
  | nil =>
    intro turns s buffer i span hs hturns hspan hroom
    obtain ⟨turns, rfl⟩ := Nat.exists_eq_succ_of_ne_zero hturns.ne'
    obtain ⟨s₁, hcr, hs₁⟩ := NetworkStream.readByte_cons hs
    obtain ⟨s₂, hlf, hs₂⟩ := NetworkStream.readByte_cons hs₁
    simp only [List.length_nil, Nat.add_zero] at hspan hroom
    obtain ⟨first, hfirst, hwrote⟩ := store_ok (show i < buffer.length by omega) CR
    obtain ⟨after, hafter, hback⟩ :=
      store_ok (show i + 1 < first.length by rw [hwrote.length]; omega) LF
    refine ⟨⟨span, span.length + 2, after, s₂⟩, ?_, by simp [chars], rfl, hwrote.trans hback, hs₂⟩
    rw [readLineFrom, hcr]
    simp only [hfirst, Except.bind, bind, setNext, if_pos hspan, if_true, hlf, hafter]
  | cons b text ih =>
    intro turns s buffer i span hs hturns hspan hroom
    obtain ⟨hb, htext⟩ := not_or.mp (List.mem_cons.not.mp htext)
    rw [List.length_cons] at hturns hspan hroom
    obtain ⟨turns, rfl⟩ := Nat.exists_eq_succ_of_ne_zero (Nat.ne_zero_of_lt hturns)
    obtain ⟨s₁, hread, hs₁⟩ := NetworkStream.readByte_cons hs
    obtain ⟨first, hfirst, hwrote⟩ := store_ok (show i < buffer.length by omega) b
    obtain ⟨line, hline, htextLine, hlength, hback, hrest⟩ := ih htext hs₁
      (show text.length < turns by omega)
      (show (span ++ [b.toUInt16]).length + text.length < maxLength by simp; omega)
      (show i + 1 + text.length + 2 ≤ first.length by rw [hwrote.length]; omega)
    refine ⟨line, ?_, ?_, ?_, hwrote.trans hback, hrest⟩
    · rw [readLineFrom, hread]
      simp only [hfirst, Except.bind, bind, setNext, if_pos (show span.length < maxLength by omega),
        Option.some.injEq, if_neg (Ne.symm hb), Option.map_some, Option.getD_some]
      exact hline
    · rw [htextLine, List.append_assoc]
      rfl
    · rw [hlength]
      simp
      omega

theorem readLineFrom_throws {maxLength : ℕ} {text rest : List UInt8} (htext : CR ∉ text) :
    ∀ {turns : ℕ} {s : NetworkStream} {buffer : List UInt8} {i : ℕ} {span : Str},
      s.bytes = text ++ (CRLF ++ rest) →
      turns ≤ text.length ∨ buffer.length < i + text.length + 2 →
      ∃ fault, readLineFrom maxLength turns s buffer i span = .error fault := by
  induction text with
  | nil =>
    intro turns s buffer i span hs hshort
    cases turns with
    | zero => exact ⟨_, by rw [readLineFrom]⟩
    | succ turns =>
      obtain ⟨s₁, hcr, hs₁⟩ := NetworkStream.readByte_cons hs
      obtain ⟨s₂, hlf, -⟩ := NetworkStream.readByte_cons hs₁
      simp only [List.length_nil, Nat.add_zero] at hshort
      rw [readLineFrom, hcr]
      by_cases hfirst : i < buffer.length
      · obtain ⟨first, hstore, hwrote⟩ := store_ok hfirst CR
        have hfull : first.length ≤ i + 1 := by
          rw [hwrote.length]
          omega
        simp only [hstore, Except.bind, bind]
        cases setNext maxLength span (some CR) with
        | error fault => exact ⟨fault, rfl⟩
        | ok more =>
          simp only [if_true, store_throws hfull]
          exact ⟨_, rfl⟩
      · simp only [store_throws (Nat.not_lt.mp hfirst), Except.bind, bind]
        exact ⟨_, rfl⟩
  | cons b text ih =>
    intro turns s buffer i span hs hshort
    obtain ⟨hb, htext⟩ := not_or.mp (List.mem_cons.not.mp htext)
    cases turns with
    | zero => exact ⟨_, by rw [readLineFrom]⟩
    | succ turns =>
      obtain ⟨s₁, hread, hs₁⟩ := NetworkStream.readByte_cons hs
      rw [List.length_cons] at hshort
      rw [readLineFrom, hread]
      by_cases hfirst : i < buffer.length
      · obtain ⟨first, hstore, hwrote⟩ := store_ok hfirst b
        simp only [hstore, Except.bind, bind]
        cases setNext maxLength span (some b) with
        | error fault => exact ⟨fault, rfl⟩
        | ok more =>
          simp only [Option.some.injEq, if_neg (Ne.symm hb)]
          exact ih htext hs₁ (by rw [hwrote.length]; omega)
      · simp only [store_throws (Nat.not_lt.mp hfirst), Except.bind, bind]
        exact ⟨_, rfl⟩

/-- A line is read if it is no longer than `maxLength` and the array has room for it, and if the
last index does not exceed an `int`. -/
theorem readLine_ok {s : NetworkStream} {maxLength startIndex : ℕ} {buffer text rest : List UInt8}
    (hs : s.bytes = text ++ (CRLF ++ rest)) (htext : CR ∉ text) (hlength : text.length < maxLength)
    (hlast : startIndex + maxLength < 2 ^ 31)
    (hroom : startIndex + text.length + 2 ≤ buffer.length) :
    ∃ line, readLine s maxLength buffer startIndex = .ok line ∧ line.text = chars text ∧
      line.bufferLength = text.length + 2 ∧ Wrote buffer line.buffer startIndex (text ++ CRLF) ∧
      line.stream.bytes = rest := by
  have hturns : (int32 (startIndex + maxLength) - startIndex).toNat = maxLength := by
    rw [int32_of_range (by omega) (by omega)]
    omega
  have hspan : ([] : Str).length + text.length < maxLength := by simpa using hlength
  obtain ⟨line, hline, htextLine, hlengthLine, hwrote, hrest⟩ :=
    readLineFrom_ok htext hs hlength hspan hroom
  refine ⟨line, ?_, by simpa using htextLine, by simpa using hlengthLine, hwrote, hrest⟩
  rw [readLine, hturns]
  exact hline

theorem readLine_throws {s : NetworkStream} {maxLength startIndex : ℕ}
    {buffer text rest : List UInt8} (hs : s.bytes = text ++ (CRLF ++ rest)) (htext : CR ∉ text)
    (hmax : startIndex < 2 ^ 31) (hsmall : maxLength < 2 ^ 31)
    (h : ¬ (text.length < maxLength ∧ startIndex + maxLength < 2 ^ 31 ∧
      startIndex + text.length + 2 ≤ buffer.length)) :
    ∃ fault, readLine s maxLength buffer startIndex = .error fault := by
  refine readLineFrom_throws htext hs ?_
  by_cases hlast : startIndex + maxLength < 2 ^ 31
  · rw [int32_of_range (by omega) (by omega)]
    omega
  · rw [int32_of_wrap (by omega) (by omega)]
    omega

end DecodingProxy.Streams
