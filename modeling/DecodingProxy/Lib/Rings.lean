import Mathlib.Data.List.Rotate
import Mathlib.Tactic.Common

/-!
# Lists kept in a ring of cells

The list that starts at cell `head` of a ring and has `count` elements occupies the cells
`slot n head 0`, `slot n head 1`, … of the `n` cells. The rules below say what writing one
cell and moving the ends does to that list.
-/

namespace DecodingProxy.Rings

variable {α : Type*}

/-- The cell of the `i`-th element. -/
def slot (n head i : ℕ) : ℕ := if head + i < n then head + i else head + i - n

theorem slot_lt {n head i : ℕ} (hhead : head < n) (hi : i < n) : slot n head i < n := by
  unfold slot
  split_ifs <;> omega

theorem slot_zero {n head : ℕ} (hhead : head < n) : slot n head 0 = head := by
  simp [slot, hhead]

theorem slot_full {n head : ℕ} : slot n head n = head := by
  unfold slot
  split_ifs <;> omega

theorem slot_succ {n head i : ℕ} (hhead : head < n) (hi : i < n) :
    slot n (slot n head 1) i = slot n head (i + 1) := by
  unfold slot
  split_ifs <;> omega

theorem slot_next {n head i : ℕ} (hhead : head < n) (hi : i < n) :
    slot n (slot n head i) 1 = slot n head (i + 1) := by
  unfold slot
  split_ifs <;> omega

theorem slot_ne {n head i j : ℕ} (hi : i < n) (hj : j < n) (hne : i ≠ j) :
    slot n head i ≠ slot n head j := by
  unfold slot
  split_ifs <;> omega

theorem slot_eq_mod {n head i : ℕ} (hhead : head < n) (hi : i ≤ n) :
    slot n head i = (head + i) % n := by
  unfold slot
  split_ifs with h
  · exact (Nat.mod_eq_of_lt h).symm
  · rw [Nat.mod_eq_sub_mod (by omega), Nat.mod_eq_of_lt (by omega)]

/-- The list at `head` of length `count`. -/
def window (items : List α) (head count : ℕ) : List α := (items.rotate head).take count

theorem window_length {items : List α} {head count : ℕ} (h : count ≤ items.length) :
    (window items head count).length = count := by
  simp [window, h]

theorem window_getElem? {items : List α} {head count i : ℕ} (hhead : head < items.length)
    (hc : count ≤ items.length) (hi : i < count) :
    (window items head count)[i]? = items[slot items.length head i]? := by
  rw [window, List.getElem?_take_of_lt hi, List.getElem?_rotate (by omega),
    slot_eq_mod hhead (by omega), Nat.add_comm]

theorem window_eq {items l : List α} {head : ℕ} (hhead : head < items.length)
    (hc : l.length ≤ items.length)
    (h : ∀ i, i < l.length → items[slot items.length head i]? = l[i]?) :
    window items head l.length = l := by
  refine List.ext_getElem? fun i => ?_
  by_cases hi : i < l.length
  · rw [window_getElem? hhead hc hi, h i hi]
  · rw [List.getElem?_eq_none (by rw [window_length hc]; omega),
      List.getElem?_eq_none (by omega)]

section Cells
variable {items l : List α} {head : ℕ} (hhead : head < items.length)
  (hc : l.length ≤ items.length) (hl : window items head l.length = l)
include hhead hc hl

theorem cell {i : ℕ} (hi : i < l.length) : items[slot items.length head i]? = l[i]? := by
  conv_rhs => rw [← hl]
  exact (window_getElem? hhead hc hi).symm

theorem window_push (hfree : l.length < items.length) (x : α) :
    window (items.set (slot items.length head l.length) x) head (l ++ [x]).length =
      l ++ [x] := by
  apply window_eq (by simpa using hhead) (by simp; omega)
  intro i hi
  simp only [List.length_append, List.length_singleton, List.length_set] at hi ⊢
  by_cases hlast : i = l.length
  · subst hlast
    simp [slot_lt hhead hfree]
  · have hlt : i < l.length := by omega
    rw [List.getElem?_set_ne (slot_ne hfree (by omega) (by omega)),
      cell hhead hc hl hlt, List.getElem?_append_left hlt]

theorem window_set {i : ℕ} (hi : i < l.length) (x : α) :
    window (items.set (slot items.length head i) x) head (l.set i x).length = l.set i x := by
  apply window_eq (by simpa using hhead) (by simpa using hc)
  intro j hj
  simp only [List.length_set] at hj ⊢
  by_cases hij : i = j
  · subst hij
    simp [slot_lt hhead (show i < items.length by omega), hi]
  · rw [List.getElem?_set_ne (slot_ne (by omega) (by omega) hij), cell hhead hc hl hj,
      List.getElem?_set_ne hij]

theorem window_set_free {i : ℕ} (hi : l.length ≤ i) (hn : i < items.length) (x : α) :
    window (items.set (slot items.length head i) x) head l.length = l := by
  apply window_eq (by simpa using hhead) (by simpa using hc)
  intro j hj
  rw [List.length_set, List.getElem?_set_ne (slot_ne hn (by omega) (by omega)),
    cell hhead hc hl hj]

theorem window_tail : window items (slot items.length head 1) l.tail.length = l.tail := by
  have hnext : slot items.length head 1 < items.length := by
    unfold slot
    split_ifs <;> omega
  apply window_eq hnext (by simp; omega)
  intro i hi
  simp only [List.length_tail] at hi
  rw [slot_succ hhead (by omega), cell hhead hc hl (by omega), List.getElem?_tail]

end Cells

theorem window_overwrite {items l : List α} {head : ℕ} (hhead : head < items.length)
    (hfull : l.length = items.length) (hl : window items head l.length = l) (x : α) :
    window (items.set head x) (slot items.length head 1) (l.tail ++ [x]).length =
      l.tail ++ [x] := by
  have hpos : 0 < items.length := by omega
  have htail : l.tail.length = items.length - 1 := by simp [hfull]
  have hlt : slot items.length head 1 < items.length := by
    unfold slot
    split_ifs <;> omega
  have hcell : slot items.length (slot items.length head 1) l.tail.length = head := by
    rw [htail, slot_succ hhead (by omega), Nat.sub_add_cancel hpos, slot_full]
  have hpush := window_push hlt (by omega) (window_tail hhead (by omega) hl) (by omega) x
  rwa [hcell] at hpush

end DecodingProxy.Rings
