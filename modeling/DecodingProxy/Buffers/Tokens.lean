import DecodingProxy.Lib.Splits
import DecodingProxy.Piped.FindVersion

/-!
# The pieces of a span and the end of a text

`FindSplit` returns a piece between delimiters, and `EndOfSubstringCI` where a text ends in a
span. The first takes every delimiter for the start of the next piece, and the second goes on
behind a mismatch without looking at that byte again.
-/

namespace DecodingProxy.Buffers
open DecodingProxy.Http DecodingProxy.Piped DecodingProxy.Restarts DecodingProxy.Runtime
open DecodingProxy.Splits

/-! ### The pieces -/

theorem not_mem_piece {α : Type} [DecidableEq α] {d : α} {span piece : List α}
    (h : piece ∈ span.splitOn d) : d ∉ piece := by
  induction span generalizing piece with
  | nil =>
    rw [List.splitOn_nil, List.mem_singleton] at h
    rw [h]
    exact List.not_mem_nil
  | cons b span ih =>
    rw [List.splitOn_cons_eq_if_modifyHead] at h
    split_ifs at h with hb
    · rcases List.mem_cons.mp h with rfl | hrest
      · exact List.not_mem_nil
      · exact ih hrest
    · obtain ⟨first, pieces, hpieces⟩ := List.exists_cons_of_ne_nil (List.splitOn_ne_nil d span)
      rw [hpieces] at h ih
      rcases List.mem_cons.mp h with rfl | hrest
      · rw [List.mem_cons, not_or]
        exact ⟨fun heq => hb (beq_iff_eq.mpr heq.symm), ih List.mem_cons_self⟩
      · exact ih (List.mem_cons_of_mem _ hrest)

/-- The first piece ends in front of the first delimiter. -/
theorem findSplit_zero {span piece : List UInt8} {byteChar : UInt8}
    (h : (span.splitOn byteChar)[0]? = some piece) : findSplit span byteChar 0 = piece := by
  by_cases hmem : byteChar ∈ span
  · obtain ⟨part, rest, rfl, hpart⟩ := List.eq_append_cons_of_mem hmem
    rw [List.splitOn_append_cons_self_of_not_mem hpart, List.getElem?_cons_zero,
      Option.some.injEq] at h
    rw [findSplit_first hpart, h]
  · rw [List.splitOn_eq_singleton hmem, List.getElem?_cons_zero, Option.some.injEq] at h
    rw [findSplit_few (by rw [List.count_eq_zero.mpr hmem]), h]

/-- Behind the first piece the slice begins at a delimiter, or it is the whole span. -/
theorem mem_findSplitFrom {span : List UInt8} {byteChar : UInt8} {index : ℕ} (hindex : index ≠ 0)
    (hmem : byteChar ∈ span) :
    ∀ {rest : List UInt8} {count offset i : ℕ}, span.drop i = rest →
      count = 0 ∨ offset < i ∧ span[offset]? = some byteChar →
      byteChar ∈ findSplitFrom span byteChar index count offset i rest := by
  intro rest
  induction rest with
  | nil => exact fun _ _ => hmem
  | cons b rest ih =>
    intro count offset i hdrop hstart
    have hnext : span.drop (i + 1) = rest := by
      rw [← List.drop_drop, hdrop, List.drop_one, List.tail_cons]
    rw [findSplitFrom]
    split_ifs with hb hcount
    · obtain ⟨hlt, hcell⟩ := hstart.resolve_left (by omega)
      apply List.mem_of_getElem? (i := 0)
      rw [List.getElem?_drop, Nat.add_zero, List.getElem?_take_of_lt hlt, hcell]
    · refine ih hnext (.inr ⟨Nat.lt_succ_self i, ?_⟩)
      rw [← hb, ← List.head?_drop, hdrop, List.head?_cons]
    · refine ih hnext ?_
      rcases hstart with hzero | ⟨hlt, hcell⟩
      · exact .inl hzero
      · exact .inr ⟨hlt.trans (Nat.lt_succ_self i), hcell⟩

/-- `FindSplit` returns the first piece, and no other one. -/
theorem findSplit_exact_iff (span : List UInt8) (byteChar : UInt8) (index : ℕ) :
    (∀ piece, (span.splitOn byteChar)[index]? = some piece →
        findSplit span byteChar index = piece) ↔
      index = 0 ∨ (span.splitOn byteChar).length ≤ index := by
  constructor
  · intro h
    by_contra hnot
    obtain ⟨hindex, hlong⟩ := not_or.mp hnot
    have hcell := List.getElem?_eq_getElem (Nat.lt_of_not_le hlong)
    have hmem : byteChar ∈ span := by
      by_contra hmem
      rw [List.splitOn_eq_singleton hmem, List.length_singleton] at hlong
      omega
    have hpiece := not_mem_piece (List.mem_of_getElem? hcell)
    rw [← h _ hcell] at hpiece
    exact hpiece (mem_findSplitFrom hindex hmem List.drop_zero (.inl rfl))
  · rintro (rfl | hfew) piece hpiece
    · exact findSplit_zero hpiece
    · rw [List.getElem?_eq_none hfew] at hpiece
      cases hpiece

/-! ### The end of a text -/

/-- The scan goes on behind every mismatch. -/
def scanAgain : ℕ → ℕ → Prop := fun _ _ => True

section Scan
variable {α : Type} [DecidableEq α] {substring span rest : List α}

theorem scanEnd_inner (substring : List α) {inner : List α} (hinner : inner ≠ []) (i : ℕ)
    (span : List α) :
    scanEnd substring inner i span =
      match afterMismatch span inner with
      | some rest => scanEnd substring substring (i + (span.length - rest.length)) rest
      | none =>
        if inner.length ≤ span.length then .ok (i + (inner.length - 1) : ℕ) else .ok (-1) := by
  induction span generalizing inner i with
  | nil =>
    obtain ⟨c, inner, rfl⟩ := List.exists_cons_of_ne_nil hinner
    simp [scanEnd, afterMismatch]
  | cons b span ih =>
    obtain ⟨c, inner, rfl⟩ := List.exists_cons_of_ne_nil hinner
    rw [scanEnd, afterMismatch]
    by_cases hb : b = c
    · rw [if_pos hb, if_pos hb]
      by_cases hend : inner = []
      · subst hend
        simp [afterMismatch]
      · rw [if_neg hend, ih hend]
        have hpos := List.length_pos_of_ne_nil hend
        cases hmismatch : afterMismatch span inner with
        | some rest =>
          have hle := (afterMismatch_length hmismatch).1
          have hindex : i + 1 + (span.length - rest.length) =
              i + ((b :: span).length - rest.length) := by
            rw [List.length_cons]
            omega
          dsimp only
          rw [hindex]
        | none =>
          have hindex : i + 1 + (inner.length - 1) = i + ((c :: inner).length - 1) := by
            rw [List.length_cons]
            omega
          simp only [hindex, List.length_cons, Nat.succ_le_succ_iff]
    · rw [if_neg hb, if_neg hb]
      simp

/-- A stop at which the text stands is where the scan ends. -/
theorem scanEnd_stop (hne : substring ≠ []) (hstop : Stop scanAgain substring span rest)
    (hhere : substring <+: rest) (i : ℕ) :
    scanEnd substring substring i span =
      .ok (i + (span.length - rest.length) + (substring.length - 1) : ℕ) := by
  induction hn : span.length using Nat.strong_induction_on generalizing span i with
  | _ n ih =>
    subst hn
    rw [scanEnd_inner substring hne]
    cases hmismatch : afterMismatch span substring with
    | none =>
      obtain rfl := (stop_iff_of_none hmismatch).mp hstop
      simp [hhere.length_le]
    | some whole =>
      have hlength := (afterMismatch_length hmismatch).1
      have hnext : Stop scanAgain substring whole rest := by
        rcases (stop_iff_of_some hmismatch trivial).mp hstop with rfl | hnext
        · exact absurd hhere (not_prefix_of_some hmismatch).1
        · exact hnext
      have hle := hnext.suffix.length_le
      dsimp only
      rw [ih _ hlength hnext _ rfl]
      congr 2
      omega

/-- The scan that stops nowhere at the text finds nothing. -/
theorem scanEnd_not_found (hne : substring ≠ []) (hnot : ¬ Found scanAgain substring span)
    (i : ℕ) : scanEnd substring substring i span = .ok (-1) := by
  induction hn : span.length using Nat.strong_induction_on generalizing span i with
  | _ n ih =>
    subst hn
    rw [scanEnd_inner substring hne]
    cases hmismatch : afterMismatch span substring with
    | none =>
      rw [found_iff_of_none hmismatch] at hnot
      have hshort : ¬ substring.length ≤ span.length := by
        intro hle
        rcases afterMismatch_none_iff.mp hmismatch with hfront | hfront
        · exact hnot (hfront.eq_of_length_le hle ▸ List.prefix_rfl)
        · exact hnot hfront
      simp [hshort]
    | some whole =>
      rw [found_iff_of_some hmismatch trivial] at hnot
      exact ih _ (afterMismatch_length hmismatch).1 hnot _ rfl

/-- The index of the last symbol of the first occurrence, or -1 if there is none. -/
def EndsFirst (substring span : List α) (result : Except Fault ℤ) : Prop :=
  (∀ before behind, FirstAt substring span before behind →
      result = .ok (before.length + substring.length - 1 : ℤ)) ∧
    (result = .ok (-1) ↔ ¬ substring <:+: span)

/-- The scan stops at the first occurrence. -/
def StopsAtFirst (substring span : List α) : Prop :=
  ∀ before behind, FirstAt substring span before behind →
    Stop scanAgain substring span (substring ++ behind)

theorem scanEnd_exact_iff (hne : substring ≠ []) (span : List α) :
    EndsFirst substring span (scanEnd substring substring 0 span) ↔
      StopsAtFirst substring span := by
  have hpos := List.length_pos_of_ne_nil hne
  constructor
  · intro ⟨hfirst, hnone⟩ before behind hat
    have hend := hfirst before behind hat
    have hfound : Found scanAgain substring span := by
      by_contra hnot
      exact hnone.mp (scanEnd_not_found hne hnot 0) hat.infix
    obtain ⟨rest, hstop, hhere⟩ := hfound
    rw [scanEnd_stop hne hstop hhere, Except.ok.injEq] at hend
    have hlength := hstop.suffix.length_le
    have hrest : rest = substring ++ behind := by
      rw [List.suffix_iff_eq_drop.mp hstop.suffix, ← hat.starts]
      congr 1
      omega
    rw [← hrest]
    exact hstop
  · intro hstops
    have hright : ∀ before behind, FirstAt substring span before behind →
        scanEnd substring substring 0 span = .ok (before.length + substring.length - 1 : ℤ) := by
      intro before behind hat
      rw [scanEnd_stop hne (hstops before behind hat) (List.prefix_append _ _), hat.length_eq,
        List.length_append]
      congr 1
      omega
    refine ⟨hright, ?_⟩
    constructor
    · intro hnone hoccurs
      obtain ⟨before, behind, hat⟩ := FirstAt.exists_of_infix hoccurs
      rw [hright before behind hat, Except.ok.injEq] at hnone
      omega
    · exact fun hnot => scanEnd_not_found hne (fun hfound => hnot hfound.infix) 0

end Scan

def lowerInvariant (culture : CharCase) (s : Str) : Str := s.map culture.toLowerInvariant

/-- `FindSplit` is right for the first piece and for no other one, and `EndOfSubstringCI` just where
the scan stops at the first occurrence. -/
theorem tokens_iff (culture : CharCase) (span : List UInt8) (byteChar : UInt8) (index : ℕ)
    {substring : Str} (hne : substring ≠ []) :
    ((∀ piece, (span.splitOn byteChar)[index]? = some piece →
          findSplit span byteChar index = piece) ↔
        index = 0 ∨ (span.splitOn byteChar).length ≤ index) ∧
      (EndsFirst (lowerInvariant culture substring) (lowerInvariant culture (chars span))
          (endOfSubstringCI culture span substring) ↔
        StopsAtFirst (lowerInvariant culture substring)
          (lowerInvariant culture (chars span))) := by
  have hlower : lowerInvariant culture substring ≠ [] := by simpa [lowerInvariant] using hne
  exact ⟨findSplit_exact_iff span byteChar index, scanEnd_exact_iff hlower _⟩

theorem tokens_iff_ab :
    ascii "ab" ≠ [] ∧
      (EndsFirst (lowerInvariant .invariantGlobalization (ascii "ab"))
          (lowerInvariant .invariantGlobalization (chars (asciiBytes "xAB")))
          (endOfSubstringCI .invariantGlobalization (asciiBytes "xAB") (ascii "ab")) ↔
        StopsAtFirst (lowerInvariant .invariantGlobalization (ascii "ab"))
          (lowerInvariant .invariantGlobalization (chars (asciiBytes "xAB")))) :=
  ⟨by decide, (tokens_iff .invariantGlobalization (asciiBytes "xAB") 0x20 0 (by decide)).2⟩

/-- The second piece comes with the delimiter in front of it, the last one as the whole span, and
the second `a` of `aab` is not taken for the start of `ab`. -/
theorem tokens_not_exact :
    findSplit (asciiBytes "a b c") 0x20 1 = asciiBytes " b" ∧
      findSplit (asciiBytes "a b") 0x20 1 = asciiBytes "a b" ∧
      (¬ ∀ piece, ((asciiBytes "a b c").splitOn 0x20)[1]? = some piece →
        findSplit (asciiBytes "a b c") 0x20 1 = piece) ∧
      ¬ EndsFirst (lowerInvariant .invariantGlobalization (ascii "ab"))
        (lowerInvariant .invariantGlobalization (chars (asciiBytes "aab")))
        (endOfSubstringCI .invariantGlobalization (asciiBytes "aab") (ascii "ab")) := by
  refine ⟨by decide, by decide, ?_, ?_⟩
  · intro h
    exact absurd (h (asciiBytes "b") (by decide)) (by decide)
  · intro h
    have hoccurs : ascii "ab" <:+: ascii "aab" := by decide
    have hnone : endOfSubstringCI .invariantGlobalization (asciiBytes "aab") (ascii "ab") =
        .ok (-1) := rfl
    exact h.2.mp hnone hoccurs

end DecodingProxy.Buffers
