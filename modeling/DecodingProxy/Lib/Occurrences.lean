import Mathlib.Data.List.Basic

/-!
# Elements of a list in their place

A property of an element may depend on the element in front of it and on the list behind it.
Where a list grows at its front, what holds of every element in its place is an invariant that
only the new front has to be checked for.
-/

namespace DecodingProxy.Occurrences

variable {α : Type*}

/-- `P` holds of every element, given the one in front of it and the list behind it. -/
def Everywhere (P : Option α → α → List α → Prop) : Option α → List α → Prop
  | _, [] => True
  | front, a :: as => P front a as ∧ Everywhere P (some a) as

variable {P Q : Option α → α → List α → Prop}

/-- The element in front of the first one matters only to the first one. -/
theorem Everywhere.change_front {front other : Option α} {as : List α}
    (h : Everywhere P front as)
    (hfirst : ∀ a rest, as = a :: rest → P front a rest → P other a rest) :
    Everywhere P other as := by
  cases as with
  | nil => trivial
  | cons a as => exact ⟨hfirst a as rfl h.1, h.2⟩

theorem Everywhere.mono {front : Option α} {as : List α} (h : Everywhere P front as)
    (hPQ : ∀ front a behind, P front a behind → Q front a behind) : Everywhere Q front as := by
  induction as generalizing front with
  | nil => trivial
  | cons a as ih => exact ⟨hPQ _ _ _ h.1, ih h.2⟩

theorem Everywhere.behind {front : Option α} {as bs : List α} {b : α}
    (h : Everywhere P front (as ++ b :: bs)) : Everywhere P (some b) bs := by
  induction as generalizing front with
  | nil => exact h.2
  | cons a as ih => exact ih h.2

theorem Everywhere.at {front : Option α} {as bs : List α} {b : α}
    (h : Everywhere P front (as ++ b :: bs)) : ∃ f, P f b bs := by
  induction as generalizing front with
  | nil => exact ⟨front, h.1⟩
  | cons a as ih => exact ih h.2

end DecodingProxy.Occurrences
