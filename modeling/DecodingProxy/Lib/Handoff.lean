import Mathlib.Data.List.Basic

/-!
# Pairing requests with items in arrival order

A hand-off answers the `k`-th request with the `k`-th item, whichever of the two
comes first. `served items n` is what `n` requests hold once `items` have come:
`none` is a request that is still open.
-/

namespace DecodingProxy.Handoff

variable {α : Type*}

def served (items : List α) (n : ℕ) : List (Option α) :=
  (List.range n).map fun k => items[k]?

@[simp] theorem served_length (items : List α) (n : ℕ) : (served items n).length = n := by
  simp [served]

@[simp] theorem served_getElem? (items : List α) (n k : ℕ) :
    (served items n)[k]? = if k < n then some items[k]? else none := by
  by_cases h : k < n <;> simp [served, h]

theorem served_succ (items : List α) (n : ℕ) :
    served items (n + 1) = served items n ++ [items[n]?] := by
  simp [served, List.range_succ]

theorem served_item_early (items : List α) (v : α) {n : ℕ} (h : n ≤ items.length) :
    served (items ++ [v]) n = served items n := by
  apply List.map_congr_left
  intro k hk
  have hk' : k < n := List.mem_range.mp hk
  rw [List.getElem?_append_left (by omega)]

theorem served_item_next (items : List α) (v : α) :
    served (items ++ [v]) (items.length + 1) = served items items.length ++ [some v] := by
  rw [served_succ, served_item_early items v (Nat.le_refl _)]
  simp

end DecodingProxy.Handoff
