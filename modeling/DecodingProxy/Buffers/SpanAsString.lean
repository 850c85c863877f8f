import DecodingProxy.Http.Messages
import DecodingProxy.Lib.Restarts

/-!
# `ExtensionsForSpanAsString`

Tests whether a span of bytes contains a text. The case sensitive tests and the one that
ignores case run the same loops, once on the symbols and once on their lower case.
-/

namespace DecodingProxy.Buffers
open DecodingProxy.Http DecodingProxy.Restarts DecodingProxy.Runtime

section Loops
variable {α : Type} [DecidableEq α]

/-- The last loop of the tests at the back. -/
def compareRest : List α → List α → Except Fault Bool
  | [], _ => .ok true
  | _ :: _, [] => .error (.raised .indexOutOfRange)
  | b :: src, c :: substring => if b ≠ c then .ok false else compareRest src substring

/-- The loops at the back. In the inner one `inner` is what is left to compare. -/
def scanAtBack (substring : List α) : Option (List α) → List α → Except Fault Bool
  | some [], _ => .ok true
  | some (_ :: _), [] => .error (.raised .indexOutOfRange)
  | some (c :: inner), b :: src =>
    if b ≠ c then scanAtBack substring none src else scanAtBack substring (some inner) src
  | none, [] => .ok true
  | none, b :: src =>
    if substring.length < src.length + 1 then
      match substring with
      | [] => .ok true
      | c :: inner =>
        if b ≠ c then scanAtBack substring none src else scanAtBack substring (some inner) src
    else compareRest (b :: src) substring

/-- The loop of `EndOfSubstringCI` from index `i` on, with `inner` left to compare. -/
def scanEnd (substring : List α) : List α → ℕ → List α → Except Fault ℤ
  | _, _, [] => .ok (-1)
  | [], _, _ :: _ => .error (.raised .indexOutOfRange)
  | c :: inner, i, b :: span =>
    if b = c then
      if inner = [] then .ok i else scanEnd substring inner (i + 1) span
    else scanEnd substring substring (i + 1) span

/-- The loop at the front, with `inner` left to compare. -/
def scanAtFront (substring : List α) : List α → List α → Except Fault Bool
  | [], _ => .ok true
  | _ :: _, [] => .error (.raised .indexOutOfRange)
  | c :: inner, b :: str =>
    if b ≠ c then
      if str.length + 1 < substring.length then .ok false
      else scanAtFront substring substring str
    else scanAtFront substring inner str

end Loops

def gotSubsequenceProbablyAtFront (str : List UInt8) (substring : Str) : Except Fault Bool :=
  if str.length < substring.length then .ok false
  else scanAtFront substring substring (chars str)

def gotSubsequenceProbablyAtBack (src : List UInt8) (substring : Str) : Except Fault Bool :=
  if src.length < substring.length then .ok false
  else scanAtBack substring none (chars src)

def gotSubsequenceProbablyAtBackCI (culture : CharCase) (src : List UInt8) (substring : Str) :
    Except Fault Bool :=
  if src.length < substring.length then .ok false
  else scanAtBack (substring.map culture.toLowerInvariant) none
    ((chars src).map culture.toLowerInvariant)

/-- The index of the last symbol of the text, or -1. -/
def endOfSubstringCI (culture : CharCase) (span : List UInt8) (substring : Str) :
    Except Fault ℤ :=
  scanEnd (substring.map culture.toLowerInvariant) (substring.map culture.toLowerInvariant) 0
    ((chars span).map culture.toLowerInvariant)

/-- Where a search for separators is, and how long the last piece was. -/
structure Split where
  index : ℤ := 0
  offset : ℕ := 0
  length : ℕ := 0

def tryFindSplit (byteChar : UInt8) (span : List UInt8) (s : Split) : Bool × Split :=
  let length := ((span.drop s.offset).takeWhile (· ≠ byteChar)).length
  if s.offset + length < span.length then
    (true, { index := int32 (s.index + 1), offset := s.offset + length + 1, length })
  else
    (false,
      { index := int32 (s.index + 1), offset := span.length, length := span.length - s.offset })

/-- The test returns, and says just whether the text occurs. -/
def Answers (answer : Except Fault Bool) (occurs : Prop) : Prop :=
  ∃ b, answer = .ok b ∧ (b = true ↔ occurs)

/-- The outer loop runs while more than the text is left. -/
def backAgain (n : ℕ) : ℕ → ℕ → Prop := fun whole _ => n < whole

/-- The loop goes on where the mismatch leaves room for the text from it on. -/
def frontAgain (n : ℕ) : ℕ → ℕ → Prop := fun _ rest => n ≤ rest + 1

section Conditions
variable {α : Type} [DecidableEq α]

/-- If the text occurs, it is found where a comparison begins, or a comparison reaches the end
inside the text; and these happen only if it occurs. -/
structure ExactAtBack (occurs : Prop) (substring src : List α) : Prop where
  seen : occurs → Found (backAgain substring.length) substring src ∨
    EndsInside (backAgain substring.length) substring src
  alike : Found (backAgain substring.length) substring src → occurs
  whole : EndsInside (backAgain substring.length) substring src → occurs

/-- If the text occurs, it is found where a comparison begins; and no comparison runs over the
end if it does not. -/
structure ExactAtFront (occurs : Prop) (substring str : List α) : Prop where
  seen : occurs → Found (frontAgain substring.length) substring str
  whole : EndsInside (frontAgain substring.length) substring str → occurs

end Conditions

/-! ### The loops -/

section Loops
variable {α : Type} [DecidableEq α] {substring src : List α}

theorem compareRest_eq (hle : src.length ≤ substring.length) :
    compareRest src substring = .ok (decide (src <+: substring)) := by
  induction src generalizing substring with
  | nil => simp [compareRest]
  | cons b src ih =>
    cases substring with
    | nil => simp at hle
    | cons c substring =>
      rw [compareRest]
      split_ifs with hdiffer
      · have hnot : ¬ b :: src <+: c :: substring := by
          rw [List.cons_prefix_cons]
          exact fun h => hdiffer h.1
        rw [decide_eq_false hnot]
      · obtain rfl := not_not.mp hdiffer
        rw [ih (by simpa using hle)]
        simp [List.cons_prefix_cons]

/-- The inner loop finds the rest of the text or goes on behind the mismatch. -/
theorem scanAtBack_inner {inner : List α} (hle : inner.length ≤ src.length) :
    scanAtBack substring (some inner) src =
      match afterMismatch src inner with
      | none => .ok true
      | some rest => scanAtBack substring none rest := by
  induction src generalizing inner with
  | nil =>
    obtain rfl : inner = [] := List.eq_nil_of_length_eq_zero (by simpa using hle)
    rfl
  | cons b src ih =>
    cases inner with
    | nil => rfl
    | cons c inner =>
      rw [scanAtBack, afterMismatch]
      by_cases heq : b = c
      · rw [if_neg (not_not.mpr heq), if_pos heq, ih (by simpa using hle)]
      · rw [if_pos heq, if_neg heq]

theorem scanAtBack_more (hne : substring ≠ []) (hlt : substring.length < src.length) :
    scanAtBack substring none src =
      match afterMismatch src substring with
      | none => .ok true
      | some rest => scanAtBack substring none rest := by
  cases src with
  | nil => simp at hlt
  | cons b src =>
    cases substring with
    | nil => exact absurd rfl hne
    | cons c inner =>
      rw [scanAtBack, if_pos (by simpa using hlt), afterMismatch]
      by_cases heq : b = c
      · rw [if_pos heq]
        simp only [if_neg (not_not.mpr heq)]
        rw [scanAtBack_inner (by simp at hlt; omega)]
      · rw [if_neg heq]
        simp only [if_pos heq]

theorem scanAtBack_rest (hle : src.length ≤ substring.length) :
    scanAtBack substring none src = .ok (decide (src <+: substring)) := by
  cases src with
  | nil => simp [scanAtBack]
  | cons b src =>
    cases substring with
    | nil => simp at hle
    | cons c inner => rw [scanAtBack, if_neg (by simpa using hle), compareRest_eq hle]

/-- The stops of the outer loop. -/
theorem scanAtBack_iff (hne : substring ≠ []) (src : List α) :
    Answers (scanAtBack substring none src)
      (Found (backAgain substring.length) substring src ∨
        EndsInside (backAgain substring.length) substring src) := by
  induction hn : src.length using Nat.strong_induction_on generalizing src with
  | _ n ih =>
    subst hn
    by_cases hlt : substring.length < src.length
    · rw [scanAtBack_more hne hlt]
      cases hmismatch : afterMismatch src substring with
      | none =>
        rw [found_iff_of_none hmismatch, endsInside_iff_of_none hmismatch]
        refine ⟨true, rfl, iff_of_true rfl (.inl ?_)⟩
        rcases afterMismatch_none_iff.mp hmismatch with hfront | hfront
        · have hle := hfront.length_le
          omega
        · exact hfront
      | some rest =>
        have hagain : backAgain substring.length src.length rest.length := hlt
        rw [found_iff_of_some hmismatch hagain, endsInside_iff_of_some hmismatch hagain]
        exact ih _ (afterMismatch_length hmismatch).1 rest rfl
    · rw [scanAtBack_rest (by omega)]
      refine ⟨_, rfl, ?_⟩
      rw [decide_eq_true_iff]
      cases hmismatch : afterMismatch src substring with
      | none =>
        rw [found_iff_of_none hmismatch, endsInside_iff_of_none hmismatch]
        constructor
        · intro hfront
          by_cases hshort : src.length < substring.length
          · exact .inr hshort
          · rw [hfront.eq_of_length (by omega)]
            exact .inl List.prefix_rfl
        · rintro (hfront | hshort)
          · rw [hfront.eq_of_length_le (by omega)]
          · rcases afterMismatch_none_iff.mp hmismatch with hfront | hfront
            · exact hfront
            · have hle := hfront.length_le
              omega
      | some rest =>
        have hstop : ¬ backAgain substring.length src.length rest.length := hlt
        refine iff_of_false (not_prefix_of_some hmismatch).2 ?_
        rintro (hfound | hends)
        · exact not_found_of_not hmismatch hstop hfound
        · exact not_endsInside_of_not hmismatch hstop hends

theorem scanAtFront_inner {inner : List α} :
    scanAtFront substring inner src =
      match afterMismatch src inner with
      | none =>
        if inner.length ≤ src.length then .ok true else .error (.raised .indexOutOfRange)
      | some rest =>
        if rest.length + 1 < substring.length then .ok false
        else scanAtFront substring substring rest := by
  induction src generalizing inner with
  | nil => cases inner <;> rfl
  | cons b src ih =>
    cases inner with
    | nil => rfl
    | cons c inner =>
      rw [scanAtFront, afterMismatch]
      by_cases heq : b = c
      · rw [if_neg (not_not.mpr heq), if_pos heq, ih]
        simp
      · rw [if_pos heq, if_neg heq]

theorem scanAtFront_iff (substring src : List α) :
    (scanAtFront substring substring src = .ok true ↔
        Found (frontAgain substring.length) substring src) ∧
      ((∃ fault, scanAtFront substring substring src = .error fault) ↔
        EndsInside (frontAgain substring.length) substring src) := by
  induction hn : src.length using Nat.strong_induction_on generalizing src with
  | _ n ih =>
    subst hn
    rw [scanAtFront_inner]
    cases hmismatch : afterMismatch src substring with
    | none =>
      rw [found_iff_of_none hmismatch, endsInside_iff_of_none hmismatch]
      have hfront : substring <+: src ↔ substring.length ≤ src.length := by
        refine ⟨List.IsPrefix.length_le, fun hle => ?_⟩
        rcases afterMismatch_none_iff.mp hmismatch with hfront | hfront
        · rw [hfront.eq_of_length_le hle]
        · exact hfront
      rw [hfront]
      by_cases hle : substring.length ≤ src.length
      · simp [hle]
      · simp [hle]
        omega
    | some rest =>
      simp only
      by_cases hagain : frontAgain substring.length src.length rest.length
      · have hle : substring.length ≤ rest.length + 1 := hagain
        rw [found_iff_of_some hmismatch hagain, endsInside_iff_of_some hmismatch hagain,
          if_neg (by omega)]
        exact ih _ (afterMismatch_length hmismatch).1 rest rfl
      · have hlt : rest.length + 1 < substring.length := Nat.lt_of_not_le hagain
        rw [if_pos hlt]
        have hfound := not_found_of_not hmismatch hagain
        have hends := not_endsInside_of_not hmismatch hagain
        simp [hfound, hends]

theorem answers_scanAtBack_iff (hne : substring ≠ []) {occurs : Prop} :
    Answers (scanAtBack substring none src) occurs ↔ ExactAtBack occurs substring src := by
  obtain ⟨b, hb, hiff⟩ := scanAtBack_iff hne src
  rw [hb]
  constructor
  · rintro ⟨answer, hanswer, hoccurs⟩
    cases hanswer
    have hboth := hoccurs.symm.trans hiff
    exact ⟨hboth.mp, fun h => hboth.mpr (.inl h), fun h => hboth.mpr (.inr h)⟩
  · rintro ⟨hseen, halike, hwhole⟩
    exact ⟨b, rfl, hiff.trans ⟨fun h => h.elim halike hwhole, hseen⟩⟩

theorem answers_scanAtFront_iff {occurs : Prop}
    (hfound : Found (frontAgain substring.length) substring src → occurs) :
    Answers (scanAtFront substring substring src) occurs ↔
      ExactAtFront occurs substring src := by
  obtain ⟨htrue, hthrows⟩ := scanAtFront_iff (substring) src
  constructor
  · rintro ⟨b, hb, hoccurs⟩
    refine ⟨fun h => ?_, fun h => ?_⟩
    · rw [← htrue, hb, hoccurs.mpr h]
    · obtain ⟨fault, hfault⟩ := hthrows.mpr h
      cases hb.symm.trans hfault
  · rintro ⟨hseen, hwhole⟩
    cases hscan : scanAtFront substring substring src with
    | error fault =>
      have hends := hthrows.mp ⟨fault, hscan⟩
      have htrue' := htrue.mpr (hseen (hwhole hends))
      cases hscan.symm.trans htrue'
    | ok b =>
      refine ⟨b, rfl, ⟨fun hb => ?_, fun h => ?_⟩⟩
      · rw [hb] at hscan
        exact hfound (htrue.mp hscan)
      · have htrue' := htrue.mpr (hseen h)
        cases hscan.symm.trans htrue'
        rfl

end Loops

/-- A span shorter than the text is refused at once. -/
theorem answers_guard_iff {answer : Except Fault Bool} {occurs : Prop} {m n : ℕ}
    (hlength : occurs → m ≤ n) :
    Answers (if n < m then .ok false else answer) occurs ↔ (m ≤ n → Answers answer occurs) := by
  split_ifs with hlt
  · refine iff_of_true ⟨false, rfl, ?_⟩ fun hle => absurd hle (by omega)
    simp only [Bool.false_eq_true, false_iff]
    intro h
    have := hlength h
    omega
  · exact ⟨fun h _ => h, fun h => h (by omega)⟩

theorem infix_chars_length {src : List UInt8} {substring : Str} (h : substring <:+: chars src) :
    substring.length ≤ src.length := by
  have hle := h.length_le
  rwa [chars, List.length_map] at hle

theorem gotAtBack_iff (src : List UInt8) {substring : Str} (hne : substring ≠ []) :
    Answers (gotSubsequenceProbablyAtBack src substring) (substring <:+: chars src) ↔
      (substring.length ≤ src.length →
        ExactAtBack (substring <:+: chars src) substring (chars src)) := by
  rw [gotSubsequenceProbablyAtBack, answers_guard_iff infix_chars_length,
    answers_scanAtBack_iff hne]

theorem gotAtFront_iff (str : List UInt8) (substring : Str) :
    Answers (gotSubsequenceProbablyAtFront str substring) (substring <:+: chars str) ↔
      (substring.length ≤ str.length →
        ExactAtFront (substring <:+: chars str) substring (chars str)) := by
  rw [gotSubsequenceProbablyAtFront, answers_guard_iff infix_chars_length,
    answers_scanAtFront_iff Found.infix]

/-- The text occurs if only ASCII letters have a case. -/
def OccursCI (substring : Str) (src : List UInt8) : Prop :=
  substring.map Str.lower <:+: (chars src).map Str.lower

instance (substring : Str) (src : List UInt8) : Decidable (OccursCI substring src) :=
  inferInstanceAs (Decidable (_ <:+: _))

theorem zip_all_iff {α β : Type} [DecidableEq β] {f : α → β} {p l : List α}
    (hle : p.length ≤ l.length) :
    ((p.zip l).all fun q => f q.1 = f q.2) = decide (p.map f <+: l.map f) := by
  induction p generalizing l with
  | nil => simp
  | cons c p ih =>
    cases l with
    | nil => simp at hle
    | cons b l =>
      rw [List.zip_cons_cons, List.all_cons, ih (by simpa using hle)]
      simp [List.cons_prefix_cons]

theorem map_prefix_congr {α β γ : Type} {f : α → β} {g : α → γ} {p l : List α}
    (h : ∀ c ∈ p, ∀ b ∈ l, f c = f b ↔ g c = g b) :
    p.map f <+: l.map f ↔ p.map g <+: l.map g := by
  induction p generalizing l with
  | nil => simp
  | cons c p ih =>
    cases l with
    | nil => simp
    | cons b l =>
      have hrest : p.map f <+: l.map f ↔ p.map g <+: l.map g :=
        ih fun c hc b hb => h c (List.mem_cons_of_mem _ hc) b (List.mem_cons_of_mem _ hb)
      simp only [List.map_cons, List.cons_prefix_cons, hrest,
        h c List.mem_cons_self b List.mem_cons_self]

theorem map_infix_congr {α β γ : Type} {f : α → β} {g : α → γ} {p l : List α}
    (h : ∀ c ∈ p, ∀ b ∈ l, f c = f b ↔ g c = g b) :
    p.map f <:+: l.map f ↔ p.map g <:+: l.map g := by
  induction l with
  | nil => simp
  | cons b l ih =>
    have hrest : p.map f <:+: l.map f ↔ p.map g <:+: l.map g :=
      ih fun c hc b hb => h c hc b (List.mem_cons_of_mem _ hb)
    have hhere : p.map f <+: (b :: l).map f ↔ p.map g <+: (b :: l).map g := map_prefix_congr h
    rw [List.map_cons, List.map_cons] at hhere ⊢
    rw [List.infix_cons_iff, List.infix_cons_iff, hhere, hrest]

theorem lower_ascii_lt {c : UInt16} (hc : c < 0x80) : Str.lower c < 0x80 := by
  unfold Str.lower
  split_ifs with hupper
  · have hle : c.toNat ≤ 0x5A := UInt16.le_iff_toNat_le.mp hupper.2
    rw [UInt16.lt_iff_toNat_lt, UInt16.toNat_add]
    change (c.toNat + 0x20) % 2 ^ 16 < 0x80
    omega
  · exact hc

theorem lower_eq_self {c : UInt16} (hc : 0x80 ≤ c) : Str.lower c = c := by
  have hupper : ¬ (0x41 ≤ c ∧ c ≤ 0x5A) := by
    rintro ⟨-, hle⟩
    exact absurd (UInt16.le_trans hc hle) (by decide)
  rw [Str.lower, if_neg hupper]

/-- A byte has the lower case of an ASCII symbol just when it has it in ASCII. -/
theorem toLowerInvariant_eq_iff (culture : CharCase) {c : UInt16} (hc : c < 0x80) (byte : UInt8) :
    culture.toLowerInvariant c = culture.toLowerInvariant byte.toUInt16 ↔
      Str.lower c = Str.lower byte.toUInt16 := by
  have hlow := lower_ascii_lt hc
  rw [culture.lower_ascii c hc]
  by_cases hsmall : byte.toUInt16 < 0x80
  · rw [culture.lower_ascii _ hsmall]
  · have hlarge : (0x80 : UInt16) ≤ byte.toUInt16 := UInt16.not_lt.mp hsmall
    have hbyte : byte.toUInt16 < 0x100 := by
      rw [UInt16.lt_iff_toNat_lt, UInt8.toNat_toUInt16]
      exact byte.toNat_lt
    have hlatin := culture.lower_latin _ hlarge hbyte
    rw [lower_eq_self hlarge]
    constructor
    · intro heq
      rw [heq] at hlow
      exact absurd hlatin (UInt16.not_le.mpr hlow)
    · intro heq
      rw [heq] at hlow
      exact absurd hlarge (UInt16.not_le.mpr hlow)

/-- An ASCII text occurs in the culture's case just when it occurs in that of ASCII. -/
theorem infix_lower_iff (culture : CharCase) (src : List UInt8) {substring : Str}
    (hascii : ∀ c ∈ substring, c < 0x80) :
    substring.map culture.toLowerInvariant <:+: (chars src).map culture.toLowerInvariant ↔
      OccursCI substring src := by
  apply map_infix_congr
  intro c hc b hb
  obtain ⟨byte, -, rfl⟩ := List.mem_map.mp hb
  exact toLowerInvariant_eq_iff culture (hascii c hc) byte

/-- For an ASCII text only the stops matter. -/
theorem exactAtBack_ascii_iff (culture : CharCase) (src : List UInt8) {substring : Str}
    (hascii : ∀ c ∈ substring, c < 0x80) {p t : Str}
    (hp : p = substring.map culture.toLowerInvariant)
    (ht : t = (chars src).map culture.toLowerInvariant) :
    ExactAtBack (OccursCI substring src) p t ↔
      (p <:+: t → Found (backAgain p.length) p t ∨ EndsInside (backAgain p.length) p t) ∧
        (EndsInside (backAgain p.length) p t → p <:+: t) := by
  have hiff : p <:+: t ↔ OccursCI substring src := by
    rw [hp, ht]
    exact infix_lower_iff culture src hascii
  rw [← hiff]
  exact ⟨fun h => ⟨h.seen, h.whole⟩, fun h => ⟨h.1, Found.infix, h.2⟩⟩

theorem gotAtBackCI_iff (culture : CharCase) (src : List UInt8) {substring : Str}
    (hne : substring ≠ []) :
    Answers (gotSubsequenceProbablyAtBackCI culture src substring) (OccursCI substring src) ↔
      (substring.length ≤ src.length →
        ExactAtBack (OccursCI substring src) (substring.map culture.toLowerInvariant)
          ((chars src).map culture.toLowerInvariant)) := by
  have hlength : OccursCI substring src → substring.length ≤ src.length := by
    intro h
    have hle := h.length_le
    rwa [List.length_map, List.length_map, chars, List.length_map] at hle
  rw [gotSubsequenceProbablyAtBackCI, answers_guard_iff hlength,
    answers_scanAtBack_iff (by simpa using hne)]

/-! ### The end of a text -/

/-- The scan returns, and an index it finds is one of the span. -/
theorem scanEnd_ok {α : Type} [DecidableEq α] {substring : List α} (hne : substring ≠ [])
    (span : List α) : ∀ {inner : List α}, inner ≠ [] → ∀ i,
      ∃ z, scanEnd substring inner i span = .ok z ∧ (z = -1 ∨ 0 ≤ z ∧ z < i + span.length) := by
  induction span with
  | nil => exact fun _ _ => ⟨-1, by rw [scanEnd], .inl rfl⟩
  | cons b span ih =>
    intro inner hinner i
    cases inner with
    | nil => exact absurd rfl hinner
    | cons c inner =>
      rw [scanEnd]
      simp only [List.length_cons]
      split_ifs with hsame hend
      · exact ⟨i, rfl, .inr (by omega)⟩
      · obtain ⟨z, hz, hrange⟩ := ih hend (i + 1)
        exact ⟨z, hz, by omega⟩
      · obtain ⟨z, hz, hrange⟩ := ih hne (i + 1)
        exact ⟨z, hz, by omega⟩

theorem endOfSubstringCI_ok (culture : CharCase) (span : List UInt8) {substring : Str}
    (hne : substring ≠ []) :
    ∃ z, endOfSubstringCI culture span substring = .ok z ∧
      (z = -1 ∨ 0 ≤ z ∧ z < span.length) := by
  have hlower : substring.map culture.toLowerInvariant ≠ [] := by simpa using hne
  obtain ⟨z, hz, hrange⟩ := scanEnd_ok hlower ((chars span).map culture.toLowerInvariant) hlower 0
  refine ⟨z, hz, ?_⟩
  simpa [chars] using hrange

end DecodingProxy.Buffers
