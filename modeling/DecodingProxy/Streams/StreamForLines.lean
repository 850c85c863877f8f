import DecodingProxy.Http.Messages
import DecodingProxy.Lib.Runs
import DecodingProxy.Lib.Searches
import DecodingProxy.Runtime.ArrayPool
import DecodingProxy.Runtime.Utf8RoundTrip
import Mathlib.Data.List.ReduceOption

/-!
# `StreamForLines`

A line is written as UTF-8 with CR LF behind it. It is read byte by byte into a rented array,
until the last two bytes are CR and LF. A read of the inner stream that gives nothing is made
again.
-/

namespace DecodingProxy.Streams.StreamForLines
open DecodingProxy.Arrays DecodingProxy.Http DecodingProxy.Runs DecodingProxy.Runtime
open DecodingProxy.Searches

/-! ### Writing -/

/-- `WriteLineAsync`, behind what is written already. -/
def writeLineAsync (written : List UInt8) (line : Str) : List UInt8 :=
  written ++ Utf8.getBytes line ++ CRLF

def writeLines (written : List UInt8) (lines : List Str) : List UInt8 :=
  lines.foldl writeLineAsync written

/-! ### Reading -/

/-- What the reads of one byte give, in their order: a byte, or nothing yet. -/
abbrev Arrivals := List (Option UInt8)

/-- The test of the two bytes from `startIndex` on. -/
def endsLine (buffer : List UInt8) (startIndex : ℕ) : Bool :=
  buffer[startIndex]? = some CR && buffer[startIndex + 1]? = some LF

/-- The loop from `REPEAT` on: the line, the array and what is still to arrive. With no more
arrivals every read is empty, and the loop has no end. -/
def readLineFrom (buffer : List UInt8) (offset : ℕ) (arrivals : Arrivals) :
    Except Halt (Str × List UInt8 × Arrivals) :=
  if buffer.length < offset + 1 then .error (.threw (.raised .argumentOutOfRange))
  else
    match arrivals with
    | [] => .error .diverges
    | none :: arrivals => readLineFrom buffer offset arrivals
    | some b :: arrivals =>
      let buffer := writeAt buffer offset [b]
      let startIndex := offset - 1
      let offset := offset + 1
      if offset < 2 then readLineFrom buffer offset arrivals
      -- the loop over `i` tests the same two bytes in both rounds
      else if (List.range 2).any fun _ => endsLine buffer startIndex then
        .ok (Utf8.getString (buffer.take startIndex), buffer, arrivals)
      else readLineFrom buffer offset arrivals

def readLineAsync (pool : ArrayPool) (arrivals : Arrivals) : Except Halt (Str × Arrivals) := do
  let buffer ← (pool.rent (2 ^ 20 * 4)).mapError .threw
  let (result, buffer, arrivals) ← readLineFrom buffer 0 arrivals
  (ArrayPool.giveBack buffer).mapError .threw
  .ok (result, arrivals)

/-- One call for each of the pools, which tell what the rented array holds at that call. -/
def readLines : List ArrayPool → Arrivals → Except Halt (List Str × Arrivals)
  | [], arrivals => .ok ([], arrivals)
  | pool :: pools, arrivals => do
    let (line, arrivals) ← readLineAsync pool arrivals
    let (lines, arrivals) ← readLines pools arrivals
    .ok (line :: lines, arrivals)

/-- Well-formed text without CR LF that fits in the array with the CR LF behind it. -/
structure Line where
  text : Str
  wellFormed : Utf8.WellFormed text
  oneLine : ¬ ascii "\r\n" <:+: text
  fits : (Utf8.getBytes text).length + 2 ≤ 2 ^ 20 * 4

/-! ### What is written -/

theorem writeLines_eq (written : List UInt8) (lines : List Str) :
    writeLines written lines = written ++ writeLines [] lines := by
  induction lines generalizing written with
  | nil => simp [writeLines]
  | cons line lines ih =>
    change writeLines (writeLineAsync written line) lines =
      written ++ writeLines (writeLineAsync [] line) lines
    rw [ih, ih (writeLineAsync [] line)]
    simp [writeLineAsync]

theorem writeLines_cons (line : Str) (lines : List Str) :
    writeLines [] (line :: lines) = Utf8.getBytes line ++ CRLF ++ writeLines [] lines := by
  change writeLines (writeLineAsync [] line) lines = _
  rw [writeLines_eq]
  rfl

/-- CR LF among the bytes is CR LF in the text. -/
theorem Line.getBytes_oneLine (line : Line) : ¬ CRLF <:+: Utf8.getBytes line.text := by
  rintro ⟨front, behind, heq⟩
  apply line.oneLine
  refine ⟨Utf8.getString front, Utf8.getString behind, ?_⟩
  calc Utf8.getString front ++ ascii "\r\n" ++ Utf8.getString behind
      = Utf8.getString (front ++ CR :: LF :: behind) := by
        rw [Utf8.getString_append_cons (by decide)]
        have hlf : Utf8.getString (LF :: behind) = LF.toUInt16 :: Utf8.getString behind :=
          Utf8.getString_append_cons (by decide) [] behind
        rw [hlf, List.append_assoc]
        rfl
    _ = Utf8.getString (Utf8.getBytes line.text) := by
        rw [← heq, List.append_assoc]
        rfl
    _ = line.text := Utf8.getString_getBytes line.wellFormed

/-! ### One line -/

theorem any_range_two (test : Bool) : ((List.range 2).any fun _ => test) = test := by
  cases test <;> rfl

/-- The test finds CR LF at the end of what is read. -/
theorem endsLine_iff {buffer front : List UInt8} {b : UInt8} (hfront : front ≠ [])
    (htake : buffer.take (front.length + 1) = front ++ [b]) :
    endsLine buffer (front.length - 1) = true ↔ CRLF <:+ front ++ [b] := by
  have hpos := List.length_pos_of_ne_nil hfront
  have hcell : ∀ j, j < front.length + 1 → buffer[j]? = (front ++ [b])[j]? := by
    intro j hj
    rw [← htake, List.getElem?_take_of_lt hj]
  have hlast : buffer[front.length - 1 + 1]? = some b := by
    rw [Nat.sub_add_cancel hpos, hcell _ (Nat.lt_succ_self _), List.getElem?_concat_length]
  have hprevious : buffer[front.length - 1]? = front.getLast? := by
    rw [hcell _ (by omega), List.getElem?_append_left (by omega), List.getLast?_eq_getElem?]
  have hcr : CRLF.take 1 <:+ front ↔ front.getLast? = some CR := by
    rw [List.getLast?_eq_some_iff]
    exact exists_congr fun _ => eq_comm
  have hiff : CRLF.take 2 <:+ front ++ [b] ↔ CRLF.take 1 <:+ front ∧ CRLF[1]? = some b :=
    take_succ_suffix_concat (by decide)
  rw [endsLine, Bool.and_eq_true, decide_eq_true_iff, decide_eq_true_iff, hlast, hprevious, ← hcr]
  refine Iff.trans ?_ hiff.symm
  simp [CRLF, eq_comm]

/-- CR LF comes only with the last byte of the line. -/
theorem not_ends_early {text front left : List UInt8} {b : UInt8} (htext : ¬ CRLF <:+: text)
    (heq : front ++ b :: left = text ++ CRLF) (hleft : left ≠ []) : ¬ CRLF <:+ front ++ [b] := by
  have hfront : front ++ [b] <+: text ++ [CR] := by
    have hall : front ++ [b] <+: text ++ CRLF := ⟨left, by rw [← heq, List.append_assoc]; rfl⟩
    apply List.prefix_of_prefix_length_le hall ⟨[LF], by simp [CRLF]⟩
    have hlength := congrArg List.length heq
    have hpos := List.length_pos_of_ne_nil hleft
    simp only [List.length_append, List.length_cons, List.length_nil, CRLF] at hlength ⊢
    omega
  intro hends
  have hinfix : CRLF <:+: text ++ [CR] := hends.isInfix.trans hfront.isInfix
  rcases infix_concat_iff.mp hinfix with hin | hlast
  · exact htext hin
  · have hlf : LF = CR := by
      have hget := hlast.getLast (by decide : CRLF ≠ [])
      rwa [List.getLast_append_singleton] at hget
    exact absurd hlf (by decide)

/-- What is read of the line stands in the array, and the rest of it is to arrive. -/
theorem readLineFrom_ok {text more : List UInt8} (htext : ¬ CRLF <:+: text)
    {arrivals : Arrivals} {buffer front left : List UInt8} (heq : front ++ left = text ++ CRLF)
    (hleft : left ≠ []) (harrive : arrivals.reduceOption = left ++ more)
    (htake : buffer.take front.length = front) (hroom : text.length + 2 ≤ buffer.length) :
    ∃ after rest, readLineFrom buffer front.length arrivals =
        .ok (Utf8.getString text, after, rest) ∧
      after.length = buffer.length ∧ rest.reduceOption = more := by
  induction arrivals generalizing buffer front left with
  | nil => simp_all [List.reduceOption]
  | cons arrival arrivals ih =>
    have hlength := congrArg List.length heq
    have hpos := List.length_pos_of_ne_nil hleft
    simp only [List.length_append, CRLF, List.length_cons, List.length_nil] at hlength
    unfold readLineFrom
    rw [if_neg (by omega)]
    cases arrival with
    | none =>
      rw [List.reduceOption_cons_of_none] at harrive
      exact ih heq hleft harrive htake hroom
    | some b =>
      obtain ⟨c, left, rfl⟩ := List.exists_cons_of_ne_nil hleft
      rw [List.reduceOption_cons_of_some, List.cons_append, List.cons.injEq] at harrive
      obtain ⟨rfl, harrive⟩ := harrive
      rw [List.length_cons] at hlength
      have hwrote : Wrote buffer (writeAt buffer front.length [b]) front.length [b] :=
        wrote_writeAt (by simp only [List.length_singleton]; omega)
      dsimp only
      generalize writeAt buffer front.length [b] = written at hwrote ⊢
      have hnext : written.take (front.length + 1) = front ++ [b] := by
        rw [← List.length_singleton (a := b), hwrote.take, htake]
      have hgoOn : left ≠ [] → ∃ after rest, readLineFrom written (front.length + 1) arrivals =
            .ok (Utf8.getString text, after, rest) ∧
          after.length = buffer.length ∧ rest.reduceOption = more := by
        intro hmore
        have hread : (front ++ [b]) ++ left = text ++ CRLF := by
          rw [List.append_assoc, List.singleton_append, heq]
        have hheld : written.take (front ++ [b]).length = front ++ [b] := by
          rw [List.length_append, List.length_singleton, hnext]
        have hrest := ih hread hmore harrive hheld (by rw [hwrote.length]; exact hroom)
        rwa [List.length_append, List.length_singleton, hwrote.length] at hrest
      by_cases hfront : front = []
      · subst hfront
        rw [if_pos (by decide)]
        apply hgoOn
        rintro rfl
        simp at hlength
      · have hfrontpos := List.length_pos_of_ne_nil hfront
        have htest := endsLine_iff hfront hnext
        rw [if_neg (by omega), any_range_two]
        by_cases hmore : left = []
        · subst hmore
          have hends : CRLF <:+ front ++ [b] := heq ▸ List.suffix_append text CRLF
          have htext : written.take (front.length - 1) = text := by
            have hshort : front.length - 1 = text.length := by
              simp only [List.length_nil] at hlength
              omega
            calc written.take (front.length - 1)
                = (written.take (front.length + 1)).take (front.length - 1) := by
                  rw [List.take_take, Nat.min_eq_left (by omega)]
              _ = text := by rw [hnext, heq, hshort, List.take_left]
          rw [if_pos (htest.mpr hends), htext]
          exact ⟨_, _, rfl, hwrote.length, harrive⟩
        · rw [if_neg fun hends => not_ends_early htext heq hmore (htest.mp hends)]
          exact hgoOn hmore

/-! ### A call, and a run of calls -/

theorem readLineAsync_ok (pool : ArrayPool) (line : Line) {more : List UInt8}
    {arrivals : Arrivals}
    (harrive : arrivals.reduceOption = Utf8.getBytes line.text ++ CRLF ++ more) :
    ∃ rest, readLineAsync pool arrivals = .ok (line.text, rest) ∧ rest.reduceOption = more := by
  have hrent : pool.rent (2 ^ 20 * 4) = .ok (pool.contents (2 ^ 20 * 4)) :=
    pool.rent_ok (n := 2 ^ 20 * 4) (by decide)
  have hlength : (pool.contents (2 ^ 20 * 4)).length = rentLength (2 ^ 20 * 4) :=
    pool.contents_length _
  generalize pool.contents (2 ^ 20 * 4) = buffer at hrent hlength
  have hroom : (Utf8.getBytes line.text).length + 2 ≤ buffer.length := by
    rw [hlength]
    exact line.fits.trans (le_rentLength _)
  obtain ⟨after, rest, hread, hafter, hrest⟩ := readLineFrom_ok line.getBytes_oneLine
    (List.nil_append _) (by simp [CRLF]) harrive List.take_zero hroom
  have hback : ArrayPool.giveBack after = .ok () := by
    rw [ArrayPool.giveBack, if_pos]
    rw [hafter, hlength]
    exact returnable_rentLength _
  refine ⟨rest, ?_, hrest⟩
  rw [Utf8.getString_getBytes line.wellFormed, List.length_nil] at hread
  unfold readLineAsync
  rw [do_of_ok (mapError_ok_iff.mpr hrent), do_of_ok hread]
  exact do_of_ok (mapError_ok_iff.mpr hback)

/-- The run lemma: each call takes its own line and the CR LF behind it, and nothing else. -/
theorem readLines_take {lines : List Line} {pools : List ArrayPool} {more : List UInt8}
    {arrivals : Arrivals} (hpools : pools.length = lines.length)
    (harrive : arrivals.reduceOption = writeLines [] (lines.map Line.text) ++ more) {k : ℕ}
    (hk : k ≤ lines.length) :
    ∃ rest, readLines (pools.take k) arrivals = .ok ((lines.map Line.text).take k, rest) ∧
      rest.reduceOption = writeLines [] ((lines.map Line.text).drop k) ++ more := by
  induction k generalizing lines pools arrivals with
  | zero => exact ⟨arrivals, rfl, harrive⟩
  | succ k ih =>
    cases lines with
    | nil => cases hk
    | cons line lines =>
      obtain ⟨pool, pools, rfl⟩ := List.exists_cons_of_length_eq_add_one hpools
      rw [List.map_cons, writeLines_cons, List.append_assoc] at harrive
      obtain ⟨after, hfirst, hafter⟩ := readLineAsync_ok pool line harrive
      obtain ⟨rest, hrest, hleft⟩ :=
        ih (Nat.succ.inj hpools) hafter (Nat.le_of_succ_le_succ hk)
      refine ⟨rest, ?_, hleft⟩
      rw [List.take_succ_cons, readLines, do_of_ok hfirst]
      exact do_of_ok hrest

/-- The lines come back in their order, however often a read gives nothing yet, and after `k` calls
the lines behind the first `k` are still to arrive, and nothing else of what was written. -/
theorem readLines_writeLines (lines : List Line) (pools : List ArrayPool)
    (hpools : pools.length = lines.length) (arrivals : Arrivals) (more : List UInt8)
    (harrive : arrivals.reduceOption = writeLines [] (lines.map Line.text) ++ more) :
    (∃ rest, readLines pools arrivals = .ok (lines.map Line.text, rest) ∧
        rest.reduceOption = more) ∧
      ∀ k ≤ lines.length, ∃ rest,
        readLines (pools.take k) arrivals = .ok ((lines.map Line.text).take k, rest) ∧
          rest.reduceOption = writeLines [] ((lines.map Line.text).drop k) ++ more := by
  refine ⟨?_, fun k hk => readLines_take hpools harrive hk⟩
  obtain ⟨rest, hread, hrest⟩ := readLines_take hpools harrive le_rfl
  rw [List.take_of_length_le hpools.le, List.take_of_length_le (by simp)] at hread
  rw [List.drop_of_length_le (by simp)] at hrest
  exact ⟨rest, hread, hrest⟩

/-- A line that ends in CR, and an empty one. -/
theorem readLines_writeLines_returnAndEmpty :
    ∃ rest, readLines [.zeroed, .zeroed]
        [none, some 0x61, some CR, none, some CR, some LF, none, none, some CR, some LF, none] =
          .ok ([ascii "a\r", []], rest) ∧
        rest.reduceOption = [] :=
  (readLines_writeLines
    [⟨ascii "a\r", .unit (by decide) (.unit (by decide) .nil), by decide, by decide⟩,
      ⟨[], .nil, by decide, by decide⟩]
    [.zeroed, .zeroed] rfl _ [] (by decide)).1

end DecodingProxy.Streams.StreamForLines
