import DecodingProxy.Buffers.SpanAsString
import DecodingProxy.Piped.HttpBinaryMapped

/-!
# `CheckChunked` and `CheckCloseConnection`

Both look for a word in the value of a field with the test for the back of a span.
-/

namespace DecodingProxy.Piped
open DecodingProxy.Buffers DecodingProxy.Http DecodingProxy.Restarts DecodingProxy.Runtime
open DecodingProxy.Piped.ConstantsForHttp

namespace ConstantsForHttp

def NAME_CONNECTION : List UInt8 := asciiBytes "Connection"
def VALUE_CLOSE_CONNECTION : List UInt8 := asciiBytes "Close"

end ConstantsForHttp

def checkCloseConnection (spans : List (List UInt8)) : Bool :=
  match tryGetFieldValueCI NAME_CONNECTION spans with
  | some raw => gotSubsequenceProbablyAtBackCI raw VALUE_CLOSE_CONNECTION
  | none => false

/-! ### The test on bytes -/

/-- On bytes the loops compare the lower case of ASCII letters. -/
theorem scanAtBack_bytes (substring src : List UInt8) :
    scanAtBack (substring.map lowerByte) none (src.map lowerByte) =
        .ok (scanSubsequence substring none src) ∧
      ∀ inner : List UInt8, inner.length ≤ src.length →
        scanAtBack (substring.map lowerByte) (some (inner.map lowerByte)) (src.map lowerByte) =
          .ok (scanSubsequence substring (some inner) src) := by
  induction src with
  | nil =>
    refine ⟨rfl, fun inner hle => ?_⟩
    obtain rfl : inner = [] := List.eq_nil_of_length_eq_zero (by simpa using hle)
    rfl
  | cons b src ih =>
    obtain ⟨hnone, hsome⟩ := ih
    constructor
    · cases substring with
      | nil =>
        rw [scanSubsequence]
        simp [scanAtBack]
      | cons c inner =>
        by_cases hlong : inner.length < src.length
        · have hscan : scanSubsequence (c :: inner) none (b :: src) =
              if lowerByte b = lowerByte c then scanSubsequence (c :: inner) (some inner) src
              else scanSubsequence (c :: inner) none src := by
            rw [scanSubsequence, if_neg (by simpa using hlong)]
          rw [hscan, List.map_cons, List.map_cons, scanAtBack, if_pos (by simpa using hlong)]
          by_cases heq : lowerByte b = lowerByte c
          · rw [if_pos heq]
            simp only [if_neg (not_not.mpr heq)]
            exact hsome inner hlong.le
          · rw [if_neg heq]
            simp only [if_pos heq]
            exact hnone
        · have hle : (b :: src).length ≤ (c :: inner).length := by simpa using hlong
          have hscan : scanSubsequence (c :: inner) none (b :: src) =
              ((b :: src).zip (c :: inner)).all fun p => lowerByte p.1 = lowerByte p.2 := by
            rw [scanSubsequence, if_pos (by simpa using hle)]
          rw [hscan, zip_all_iff hle, scanAtBack_rest (by simpa using hle)]
    · intro inner hle
      cases inner with
      | nil => rfl
      | cons c inner =>
        rw [List.map_cons, List.map_cons, scanAtBack, scanSubsequence]
        by_cases heq : lowerByte b = lowerByte c
        · rw [if_neg (not_not.mpr heq), if_pos heq]
          exact hsome inner (by simpa using hle)
        · rw [if_pos heq, if_neg heq]
          exact hnone

/-- The word occurs in the bytes if only ASCII letters have a case. -/
def WordOccurs (word raw : List UInt8) : Prop := word.map lowerByte <:+: raw.map lowerByte

instance (word raw : List UInt8) : Decidable (WordOccurs word raw) :=
  inferInstanceAs (Decidable (_ <:+: _))

theorem gotBytesAtBackCI_stops {raw word : List UInt8} (hne : word ≠ []) :
    Piped.gotSubsequenceProbablyAtBackCI raw word = true ↔ word.length ≤ raw.length ∧
      (Found (backAgain word.length) (word.map lowerByte) (raw.map lowerByte) ∨
        EndsInside (backAgain word.length) (word.map lowerByte) (raw.map lowerByte)) := by
  have hlower : word.map lowerByte ≠ [] := by simpa using hne
  obtain ⟨b, hb, hiff⟩ := scanAtBack_iff hlower (raw.map lowerByte)
  rw [(scanAtBack_bytes word raw).1] at hb
  rw [List.length_map] at hiff
  rw [Piped.gotSubsequenceProbablyAtBackCI, Bool.and_eq_true, decide_eq_true_iff, ← hiff]
  simp only [Except.ok.inj hb]

theorem gotBytesAtBackCI_iff (raw : List UInt8) {word : List UInt8} (hne : word ≠ []) :
    (Piped.gotSubsequenceProbablyAtBackCI raw word = true ↔ WordOccurs word raw) ↔
      (word.length ≤ raw.length →
        ExactAtBack (WordOccurs word raw) (word.map lowerByte) (raw.map lowerByte)) := by
  have hlength : WordOccurs word raw → word.length ≤ raw.length := by
    intro h
    simpa using h.length_le
  rw [← answers_scanAtBack_iff (by simpa using hne), ← answers_guard_iff hlength,
    (scanAtBack_bytes word raw).1]
  have hanswer : (if raw.length < word.length then (.ok false : Except Fault Bool)
      else .ok (scanSubsequence word none raw)) =
        .ok (Piped.gotSubsequenceProbablyAtBackCI raw word) := by
    unfold Piped.gotSubsequenceProbablyAtBackCI
    split_ifs with hlt
    · rw [decide_eq_false (by omega), Bool.false_and]
    · rw [decide_eq_true (by omega), Bool.true_and]
  rw [hanswer]
  constructor
  · intro h
    exact ⟨_, rfl, h⟩
  · rintro ⟨b, hb, h⟩
    cases hb
    exact h

/-- What a check answers, and what it is to answer, for the field it reads. -/
theorem check_iff {name word : List UInt8} (hne : word ≠ []) {spans : List (List UInt8)} :
    ((match tryGetFieldValueCI name spans with
        | some span => Piped.gotSubsequenceProbablyAtBackCI span word
        | none => false) = true ↔
      ∃ value, tryGetFieldValueCI name spans = some value ∧ WordOccurs word value) ↔
      ∀ value, tryGetFieldValueCI name spans = some value → word.length ≤ value.length →
        ExactAtBack (WordOccurs word value) (word.map lowerByte) (value.map lowerByte) := by
  cases hvalue : tryGetFieldValueCI name spans with
  | none => simp
  | some value =>
    simp only [Option.some.injEq, exists_eq_left', forall_eq']
    exact gotBytesAtBackCI_iff value hne

/-- Each test is exact just when the text, if it occurs, stands at a stop of the search, and no
search ends inside the text; the checks are exact just when the test is on the field's value. -/
theorem subsequenceTests_iff (culture : CharCase) (span : List UInt8) (substring : Str)
    (hne : substring ≠ []) (spans : List (List UInt8)) :
    (Answers (Buffers.gotSubsequenceProbablyAtBackCI culture span substring)
        (OccursCI substring span) ↔
      (substring.length ≤ span.length → ExactAtBack (OccursCI substring span)
        (substring.map culture.toLowerInvariant)
        ((chars span).map culture.toLowerInvariant))) ∧
    (Answers (gotSubsequenceProbablyAtBack span substring)
        (substring <:+: chars span) ↔
      (substring.length ≤ span.length →
        ExactAtBack (substring <:+: chars span) substring (chars span))) ∧
    (Answers (gotSubsequenceProbablyAtFront span substring)
        (substring <:+: chars span) ↔
      (substring.length ≤ span.length →
        ExactAtFront (substring <:+: chars span) substring (chars span))) ∧
    ((checkChunked spans = true ↔ ∃ value,
        tryGetFieldValueCI NAME_TRANSFER_ENCODING spans = some value ∧
          WordOccurs VALUE_CHUNKED value) ↔
      ∀ value, tryGetFieldValueCI NAME_TRANSFER_ENCODING spans = some value →
        VALUE_CHUNKED.length ≤ value.length → ExactAtBack (WordOccurs VALUE_CHUNKED value)
          (VALUE_CHUNKED.map lowerByte) (value.map lowerByte)) ∧
    ((checkCloseConnection spans = true ↔ ∃ value,
        tryGetFieldValueCI NAME_CONNECTION spans = some value ∧
          WordOccurs VALUE_CLOSE_CONNECTION value) ↔
      ∀ value, tryGetFieldValueCI NAME_CONNECTION spans = some value →
        VALUE_CLOSE_CONNECTION.length ≤ value.length →
          ExactAtBack (WordOccurs VALUE_CLOSE_CONNECTION value)
            (VALUE_CLOSE_CONNECTION.map lowerByte) (value.map lowerByte)) :=
  ⟨gotAtBackCI_iff culture span hne, gotAtBack_iff span hne, gotAtFront_iff span _,
    check_iff (by decide), check_iff (by decide)⟩

theorem subsequenceTests_iff_ab :
    ascii "ab" ≠ [] ∧
      (Answers (gotSubsequenceProbablyAtBack (asciiBytes "xxab") (ascii "ab"))
          (ascii "ab" <:+: chars (asciiBytes "xxab")) ↔
        ((ascii "ab").length ≤ (asciiBytes "xxab").length →
          ExactAtBack (ascii "ab" <:+: chars (asciiBytes "xxab")) (ascii "ab")
            (chars (asciiBytes "xxab")))) :=
  ⟨by decide, (subsequenceTests_iff .invariantGlobalization (asciiBytes "xxab") (ascii "ab")
    (by decide) []).2.1⟩

/-- The search goes on behind the second `a` and misses the text; what is left at the end begins
the text and is taken for all of it; and at the front the comparison runs over the end. -/
theorem subsequenceTests_not_exact :
    ¬ Answers (gotSubsequenceProbablyAtBack (asciiBytes "aab") (ascii "ab"))
        (ascii "ab" <:+: chars (asciiBytes "aab")) ∧
      ¬ Answers (Buffers.gotSubsequenceProbablyAtBackCI .invariantGlobalization
          (asciiBytes "ABXa") (ascii "abc")) (OccursCI (ascii "abc") (asciiBytes "ABXa")) ∧
      ¬ Answers (gotSubsequenceProbablyAtFront (asciiBytes "ba") (ascii "ab"))
        (ascii "ab" <:+: chars (asciiBytes "ba")) ∧
      (checkChunked [asciiBytes "Transfer-Encoding: cchunked\r\n"] = false ∧
        WordOccurs VALUE_CHUNKED (asciiBytes "cchunked")) ∧
      (checkCloseConnection [asciiBytes "Connection: closxc\r\n"] = true ∧
        ¬ WordOccurs VALUE_CLOSE_CONNECTION (asciiBytes "closxc")) := by
  refine ⟨?_, ?_, ?_, ⟨by decide, by decide⟩, ⟨by decide, by decide⟩⟩
  · rintro ⟨b, hb, hiff⟩
    have hmissed : gotSubsequenceProbablyAtBack (asciiBytes "aab") (ascii "ab") = .ok false := by
      decide
    cases hmissed.symm.trans hb
    revert hiff
    decide
  · rintro ⟨b, hb, hiff⟩
    have htaken : Buffers.gotSubsequenceProbablyAtBackCI .invariantGlobalization
        (asciiBytes "ABXa") (ascii "abc") = .ok true := by decide
    cases htaken.symm.trans hb
    revert hiff
    decide
  · rintro ⟨b, hb, -⟩
    have hthrows : gotSubsequenceProbablyAtFront (asciiBytes "ba") (ascii "ab") =
        .error (.raised .indexOutOfRange) := by decide
    cases hthrows.symm.trans hb

end DecodingProxy.Piped
