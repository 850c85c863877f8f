import Mathlib.Data.List.Infix
import Mathlib.Tactic.Common

/-!
# Searches that restart behind a mismatch

A search compares the pattern with the text from a stop on. At the first symbol that differs it
goes on behind that symbol, so the stops are not all positions: an occurrence that begins between
two stops is not seen. `again` says, of the lengths of the text at a stop and behind the mismatch,
whether the search stops there again.
-/

namespace DecodingProxy.Restarts

variable {α : Type*} [DecidableEq α] {p text rest whole : List α} {again : ℕ → ℕ → Prop}

/-- What stands behind the first symbol that differs. -/
def afterMismatch : List α → List α → Option (List α)
  | a :: rest, b :: p => if a = b then afterMismatch rest p else some rest
  | _, _ => none

theorem afterMismatch_none_iff : afterMismatch text p = none ↔ text <+: p ∨ p <+: text := by
  induction text generalizing p with
  | nil => simp [afterMismatch]
  | cons a text ih =>
    cases p with
    | nil => simp [afterMismatch]
    | cons b p =>
      rw [afterMismatch]
      split_ifs with heq
      · rw [ih, List.cons_prefix_cons, List.cons_prefix_cons]
        simp [heq]
      · rw [List.cons_prefix_cons, List.cons_prefix_cons]
        simp [heq, Ne.symm heq]

theorem afterMismatch_length (h : afterMismatch text p = some rest) :
    rest.length < text.length ∧ text.length ≤ rest.length + p.length := by
  induction text generalizing p with
  | nil => simp [afterMismatch] at h
  | cons a text ih =>
    cases p with
    | nil => simp [afterMismatch] at h
    | cons b p =>
      rw [afterMismatch] at h
      split_ifs at h
      · have hle := ih h
        simp only [List.length_cons]
        omega
      · cases h
        simp

theorem afterMismatch_suffix (h : afterMismatch text p = some rest) : rest <:+ text := by
  induction text generalizing p with
  | nil => simp [afterMismatch] at h
  | cons a text ih =>
    cases p with
    | nil => simp [afterMismatch] at h
    | cons b p =>
      rw [afterMismatch] at h
      split_ifs at h
      · exact (ih h).trans (List.suffix_cons _ _)
      · cases h
        exact List.suffix_cons _ _

/-- The search compares the pattern with the text from `rest` on. -/
inductive Stop (again : ℕ → ℕ → Prop) (p text : List α) : List α → Prop
  | start : Stop again p text text
  | next {whole rest : List α} : Stop again p text whole → afterMismatch whole p = some rest →
      again whole.length rest.length → Stop again p text rest

theorem Stop.of_next (hmismatch : afterMismatch text p = some whole)
    (hagain : again text.length whole.length) (h : Stop again p whole rest) :
    Stop again p text rest := by
  induction h with
  | start => exact .next .start hmismatch hagain
  | next _ hm ha ih => exact .next ih hm ha

theorem stop_iff :
    Stop again p text rest ↔ rest = text ∨ ∃ whole, afterMismatch text p = some whole ∧
      again text.length whole.length ∧ Stop again p whole rest := by
  constructor
  · intro h
    induction h with
    | start => exact .inl rfl
    | next _ hm ha ih =>
      refine .inr ?_
      rcases ih with rfl | ⟨first, hfirst, hagain, hstop⟩
      · exact ⟨_, hm, ha, .start⟩
      · exact ⟨first, hfirst, hagain, .next hstop hm ha⟩
  · rintro (rfl | ⟨whole, hm, ha, hstop⟩)
    · exact .start
    · exact hstop.of_next hm ha

theorem Stop.suffix (h : Stop again p text rest) : rest <:+ text := by
  induction h with
  | start => exact List.suffix_rfl
  | next _ hm _ ih => exact (afterMismatch_suffix hm).trans ih

/-- Where nothing differs there is no further stop. -/
theorem stop_iff_of_none (h : afterMismatch text p = none) :
    Stop again p text rest ↔ rest = text := by
  rw [stop_iff, h]
  simp

theorem stop_iff_of_some (h : afterMismatch text p = some whole)
    (hagain : again text.length whole.length) :
    Stop again p text rest ↔ rest = text ∨ Stop again p whole rest := by
  rw [stop_iff, h]
  simp [hagain]

theorem stop_iff_of_not (h : afterMismatch text p = some whole)
    (hagain : ¬ again text.length whole.length) :
    Stop again p text rest ↔ rest = text := by
  rw [stop_iff, h]
  simp [hagain]

/-- The pattern stands at a stop. -/
def Found (again : ℕ → ℕ → Prop) (p text : List α) : Prop :=
  ∃ rest, Stop again p text rest ∧ p <+: rest

/-- At a stop too near the end for the pattern, what is left begins the pattern. -/
def EndsInside (again : ℕ → ℕ → Prop) (p text : List α) : Prop :=
  ∃ rest, Stop again p text rest ∧ rest.length < p.length ∧ rest <+: p

theorem Found.infix (h : Found again p text) : p <:+: text := by
  obtain ⟨rest, hstop, hprefix⟩ := h
  exact hprefix.isInfix.trans hstop.suffix.isInfix

theorem found_iff_of_none (h : afterMismatch text p = none) :
    Found again p text ↔ p <+: text := by
  simp only [Found, stop_iff_of_none h, exists_eq_left]

theorem endsInside_iff_of_none (h : afterMismatch text p = none) :
    EndsInside again p text ↔ text.length < p.length := by
  simp only [EndsInside, stop_iff_of_none h, exists_eq_left]
  refine ⟨And.left, fun hlt => ⟨hlt, ?_⟩⟩
  rcases afterMismatch_none_iff.mp h with hprefix | hprefix
  · exact hprefix
  · have hle := hprefix.length_le
    omega

theorem not_prefix_of_some (h : afterMismatch text p = some whole) :
    ¬ p <+: text ∧ ¬ text <+: p := by
  have hnot : ¬ (text <+: p ∨ p <+: text) := by
    rw [← afterMismatch_none_iff, h]
    nofun
  tauto

theorem found_iff_of_some (h : afterMismatch text p = some whole)
    (hagain : again text.length whole.length) :
    Found again p text ↔ Found again p whole := by
  simp only [Found, stop_iff_of_some h hagain, or_and_right, exists_or, exists_eq_left,
    (not_prefix_of_some h).1, false_or]

theorem endsInside_iff_of_some (h : afterMismatch text p = some whole)
    (hagain : again text.length whole.length) :
    EndsInside again p text ↔ EndsInside again p whole := by
  simp only [EndsInside, stop_iff_of_some h hagain, or_and_right, exists_or, exists_eq_left,
    (not_prefix_of_some h).2, and_false, false_or]

theorem not_found_of_not (h : afterMismatch text p = some whole)
    (hagain : ¬ again text.length whole.length) : ¬ Found again p text := by
  simp only [Found, stop_iff_of_not h hagain, exists_eq_left]
  exact (not_prefix_of_some h).1

theorem not_endsInside_of_not (h : afterMismatch text p = some whole)
    (hagain : ¬ again text.length whole.length) : ¬ EndsInside again p text := by
  simp only [EndsInside, stop_iff_of_not h hagain, exists_eq_left]
  exact fun hends => (not_prefix_of_some h).2 hends.2

/-! ### Behind a separator -/

/-- Where the text has a symbol that the pattern lacks, the search goes on behind it, if not
before. -/
theorem afterMismatch_separated {front rest : List α} {s : α} (hs : s ∉ p)
    (h : afterMismatch (front ++ s :: text) p = some rest) :
    rest = text ∨ ∃ before, before.length < front.length ∧ rest = before ++ s :: text := by
  induction front generalizing p with
  | nil =>
    cases p with
    | nil => simp [afterMismatch] at h
    | cons b p =>
      rw [List.nil_append, afterMismatch, if_neg (List.ne_of_not_mem_cons hs)] at h
      exact .inl (Option.some.inj h).symm
  | cons a front ih =>
    cases p with
    | nil => simp [afterMismatch] at h
    | cons b p =>
      rw [List.cons_append, afterMismatch] at h
      split_ifs at h
      · obtain hrest | ⟨before, hlt, hrest⟩ := ih (List.not_mem_of_not_mem_cons hs) h
        · exact .inl hrest
        · exact .inr ⟨before, Nat.lt_succ_of_lt hlt, hrest⟩
      · exact .inr ⟨front, Nat.lt_succ_self _, (Option.some.inj h).symm⟩

/-- A pattern behind a symbol that it lacks is found, if the search stops where the pattern and
more is left. -/
theorem found_separated {front : List α} {s : α} (hs : s ∉ p)
    (hagain : ∀ m n, p.length < m → again m n) : Found again p (front ++ s :: (p ++ rest)) := by
  induction hn : front.length using Nat.strong_induction_on generalizing front with
  | _ n ih =>
    subst hn
    have hlong : p.length < (front ++ s :: (p ++ rest)).length := by
      simp only [List.length_append, List.length_cons]
      omega
    cases hmismatch : afterMismatch (front ++ s :: (p ++ rest)) p with
    | none =>
      rw [found_iff_of_none hmismatch]
      rcases afterMismatch_none_iff.mp hmismatch with hfront | hfront
      · have hle := hfront.length_le
        omega
      · exact hfront
    | some whole =>
      rw [found_iff_of_some hmismatch (hagain _ _ hlong)]
      obtain rfl | ⟨before, hlt, rfl⟩ := afterMismatch_separated hs hmismatch
      · exact ⟨_, .start, List.prefix_append _ _⟩
      · exact ih _ hlt rfl

/-- No search ends inside the pattern if the last symbol of the text is not in it. -/
theorem not_endsInside_of_last {front : List α} {l : α} (hl : l ∉ p)
    (hagain : ∀ m n, again m n → p.length < m) : ¬ EndsInside again p (front ++ [l]) := by
  rintro ⟨rest, hstop, -, hfront⟩
  have hne : rest ≠ [] := by
    cases hstop with
    | start => simp
    | next _ hmismatch hmore =>
      have hlength := (afterMismatch_length hmismatch).2
      have hlong := hagain _ _ hmore
      exact List.ne_nil_of_length_pos (by omega)
  have hlast : rest.getLast hne = l := by
    rw [hstop.suffix.getLast hne, List.getLast_append_singleton]
  exact hl (hfront.subset (hlast ▸ List.getLast_mem hne))

end DecodingProxy.Restarts
