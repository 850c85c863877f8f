import Mathlib.Data.List.TakeWhile
import Mathlib.Tactic.Common

/-!
# Ordered forests and their listings with depths

A forest is written as its first tree and the trees behind it. In the listing every node stands in
front of its children, with its depth, and the forest is read back out of the depths.
-/

namespace DecodingProxy

inductive Forest (α : Type*)
  | nil
  | node (label : α) (children next : Forest α)
  deriving DecidableEq, Repr

namespace Forest

variable {α : Type*} {depth : ℕ} {f g : Forest α}

def append : Forest α → Forest α → Forest α
  | nil, g => g
  | node a children next, g => node a children (append next g)

/-- The trees of the forest, each with the label of its root. -/
def trees : Forest α → List (α × Forest α)
  | nil => []
  | node a children next => (a, children) :: trees next

def preorder (depth : ℕ) : Forest α → List (ℕ × α)
  | nil => []
  | node a children next => (depth, a) :: (preorder (depth + 1) children ++ preorder depth next)

@[simp] theorem preorder_nil : preorder depth (nil : Forest α) = [] := rfl

@[simp] theorem preorder_node (a : α) (children next : Forest α) :
    preorder depth (node a children next) =
      (depth, a) :: (preorder (depth + 1) children ++ preorder depth next) := rfl

@[simp] theorem preorder_append :
    preorder depth (append f g) = preorder depth f ++ preorder depth g := by
  induction f with
  | nil => rfl
  | node a children next _ ih => simp [append, ih]

theorem depth_le_of_mem_preorder {x : ℕ × α} (h : x ∈ preorder depth f) : depth ≤ x.1 := by
  induction f generalizing depth with
  | nil => cases h
  | node a children next below behind =>
    rw [preorder_node, List.mem_cons, List.mem_append] at h
    rcases h with rfl | h | h
    · exact le_rfl
    · exact (Nat.le_succ depth).trans (below h)
    · exact behind h

/-- What is deeper than the front goes under it. -/
def ofPreorder : List (ℕ × α) → Forest α
  | [] => nil
  | (depth, a) :: l =>
    node a (ofPreorder (l.takeWhile (depth < ·.1))) (ofPreorder (l.dropWhile (depth < ·.1)))
termination_by l => l.length
decreasing_by
  · exact Nat.lt_succ_of_le (List.takeWhile_prefix _).length_le
  · exact Nat.lt_succ_of_le (List.dropWhile_suffix _).length_le

theorem takeWhile_preorder :
    (preorder (depth + 1) f ++ preorder depth g).takeWhile (depth < ·.1) =
      preorder (depth + 1) f := by
  have hdeeper : ∀ x ∈ preorder (depth + 1) f, decide (depth < x.1) = true := by
    intro x hx
    exact decide_eq_true (depth_le_of_mem_preorder hx)
  rw [List.takeWhile_append_of_pos hdeeper]
  cases g with
  | nil => simp
  | node a children next => simp

theorem dropWhile_preorder :
    (preorder (depth + 1) f ++ preorder depth g).dropWhile (depth < ·.1) = preorder depth g := by
  have hdeeper : ∀ x ∈ preorder (depth + 1) f, decide (depth < x.1) = true := by
    intro x hx
    exact decide_eq_true (depth_le_of_mem_preorder hx)
  rw [List.dropWhile_append_of_pos hdeeper]
  cases g with
  | nil => rfl
  | node a children next => simp

theorem ofPreorder_preorder (depth : ℕ) (f : Forest α) : ofPreorder (preorder depth f) = f := by
  induction f generalizing depth with
  | nil => rw [preorder_nil, ofPreorder]
  | node a children next below behind =>
    rw [preorder_node, ofPreorder, takeWhile_preorder, dropWhile_preorder, below, behind]

end Forest

end DecodingProxy
