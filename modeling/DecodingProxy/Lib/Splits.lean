import Mathlib.Data.List.Infix
import Mathlib.Data.Nat.Find
import Mathlib.Tactic.Common

/-!
# Texts split at a separator

A text is split at the leftmost separator, and what is behind that is split on. The pieces are
determined by the text, and every text has them.
-/

namespace DecodingProxy.Splits

variable {α : Type*} {p sep text before behind : List α}

/-- `p` starts behind `before`, and nowhere in front of that. -/
structure FirstAt (p text before behind : List α) : Prop where
  eq : text = before ++ p ++ behind
  first : ∀ j < before.length, ¬ p <+: text.drop j

/-- The pieces of a text between the separators. -/
inductive SplitsInto (sep : List α) : List α → List (List α) → Prop
  | last {piece : List α} : ¬ sep <:+: piece → SplitsInto sep piece [piece]
  | cons {text piece rest : List α} {pieces : List (List α)} : FirstAt sep text piece rest →
    SplitsInto sep rest pieces → SplitsInto sep text (piece :: pieces)

theorem FirstAt.starts (h : FirstAt p text before behind) :
    text.drop before.length = p ++ behind := by
  rw [h.eq, List.append_assoc, List.drop_left]

theorem FirstAt.prefix_drop (h : FirstAt p text before behind) :
    p <+: text.drop before.length :=
  ⟨behind, h.starts.symm⟩

theorem FirstAt.take_eq (h : FirstAt p text before behind) : text.take before.length = before := by
  rw [h.eq, List.append_assoc, List.take_left]

theorem FirstAt.length_eq (h : FirstAt p text before behind) :
    text.length = before.length + p.length + behind.length := by
  rw [h.eq, List.length_append, List.length_append]

theorem FirstAt.length_le (h : FirstAt p text before behind) :
    before.length + p.length ≤ text.length := by
  rw [h.length_eq]
  exact Nat.le_add_right _ _

theorem FirstAt.infix (h : FirstAt p text before behind) : p <:+: text :=
  ⟨before, behind, h.eq.symm⟩

theorem FirstAt.le (h : FirstAt p text before behind) {j : ℕ} (hj : p <+: text.drop j) :
    before.length ≤ j := by
  apply Nat.le_of_not_lt
  intro hlt
  exact h.first j hlt hj

theorem FirstAt.unique {before' behind' : List α} (h : FirstAt p text before behind)
    (h' : FirstAt p text before' behind') : before = before' ∧ behind = behind' := by
  have hle := h.le (h'.starts ▸ List.prefix_append p behind')
  have hge := h'.le (h.starts ▸ List.prefix_append p behind)
  have heq : before ++ (p ++ behind) = before' ++ (p ++ behind') := by
    rw [← List.append_assoc, ← List.append_assoc, ← h.eq, ← h'.eq]
  obtain ⟨hbefore, hrest⟩ := List.append_inj heq (Nat.le_antisymm hle hge)
  exact ⟨hbefore, List.append_cancel_left hrest⟩

theorem infix_iff_prefix_drop : p <:+: text ↔ ∃ j ≤ text.length, p <+: text.drop j := by
  constructor
  · intro ⟨before, behind, heq⟩
    refine ⟨before.length, ?_, behind, ?_⟩
    · rw [← heq]
      simp only [List.length_append]
      omega
    · rw [← heq, List.append_assoc, List.drop_left]
  · intro ⟨j, _, hj⟩
    exact hj.isInfix.trans (List.drop_suffix j text).isInfix

theorem FirstAt.exists_of_infix [DecidableEq α] (h : p <:+: text) :
    ∃ before behind, FirstAt p text before behind := by
  have hex : ∃ j, j ≤ text.length ∧ p <+: text.drop j := infix_iff_prefix_drop.mp h
  obtain ⟨hle, behind, hbehind⟩ := Nat.find_spec hex
  have hlength : (text.take (Nat.find hex)).length = Nat.find hex := by
    rw [List.length_take, Nat.min_eq_left hle]
  refine ⟨text.take (Nat.find hex), behind, ?_, ?_⟩
  · rw [List.append_assoc, hbehind, List.take_append_drop]
  · intro j hj hprefix
    rw [hlength] at hj
    exact Nat.find_min hex hj ⟨hj.le.trans hle, hprefix⟩

theorem SplitsInto.ne_nil {pieces : List (List α)} (h : SplitsInto sep text pieces) :
    pieces ≠ [] := by
  cases h with
  | last _ => exact List.cons_ne_nil _ _
  | cons _ _ => exact List.cons_ne_nil _ _

theorem SplitsInto.unique {pieces pieces' : List (List α)} (h : SplitsInto sep text pieces)
    (h' : SplitsInto sep text pieces') : pieces = pieces' := by
  induction h generalizing pieces' with
  | last hnot =>
    cases h' with
    | last _ => rfl
    | cons hfirst _ => exact absurd hfirst.infix hnot
  | cons hfirst _ ih =>
    cases h' with
    | last hnot => exact absurd hfirst.infix hnot
    | cons hfirst' hrest =>
      obtain ⟨rfl, rfl⟩ := hfirst.unique hfirst'
      rw [ih hrest]

theorem SplitsInto.exists [DecidableEq α] (hsep : sep ≠ []) (text : List α) :
    ∃ pieces, SplitsInto sep text pieces := by
  by_cases h : sep <:+: text
  · obtain ⟨piece, rest, hfirst⟩ := FirstAt.exists_of_infix h
    have hlt : rest.length < text.length := by
      have hpos := List.length_pos_of_ne_nil hsep
      rw [hfirst.eq]
      simp only [List.length_append]
      omega
    obtain ⟨pieces, hpieces⟩ := SplitsInto.exists hsep rest
    exact ⟨piece :: pieces, .cons hfirst hpieces⟩
  · exact ⟨[text], .last h⟩
termination_by text.length

theorem FirstAt.drop {front : List α} (h : FirstAt p text (front ++ before) behind) :
    FirstAt p (text.drop front.length) before behind := by
  constructor
  · rw [h.eq, List.append_assoc, List.append_assoc, List.drop_left, List.append_assoc]
  · intro j hj hprefix
    rw [List.drop_drop] at hprefix
    apply h.first (front.length + j) _ hprefix
    rw [List.length_append]
    omega

theorem prefix_drop_append_iff {j : ℕ} (hj : j + p.length ≤ text.length) :
    p <+: (text ++ behind).drop j ↔ p <+: text.drop j := by
  rw [List.drop_append_of_le_length (by omega)]
  constructor
  · intro h
    apply List.prefix_of_prefix_length_le h (List.prefix_append _ _)
    rw [List.length_drop]
    omega
  · intro h
    exact h.trans (List.prefix_append _ _)

/-! ### The pieces with what ends them -/

/-- Every piece with the separator behind it, and the last one with `close`. -/
def marked (sep close : List α) : List (List α) → List (List α)
  | [] => []
  | [last] => [last ++ close]
  | piece :: pieces => (piece ++ sep) :: marked sep close pieces

theorem marked_cons (close piece : List α) {pieces : List (List α)} (h : pieces ≠ []) :
    marked sep close (piece :: pieces) = (piece ++ sep) :: marked sep close pieces := by
  cases pieces with
  | nil => exact absurd rfl h
  | cons second pieces => rfl

theorem SplitsInto.flatten_marked {pieces : List (List α)} (h : SplitsInto sep text pieces)
    (close : List α) : (marked sep close pieces).flatten = text ++ close := by
  induction h with
  | last _ => simp [marked]
  | cons hfirst hrest ih =>
    rw [marked_cons close _ hrest.ne_nil, List.flatten_cons, ih, hfirst.eq, List.append_assoc,
      List.append_assoc, List.append_assoc]

end DecodingProxy.Splits
