import Mathlib.Tactic

/-!
# Trees grown from a length-doubling generator

A generator `g` gives a label two children, `g x false` on the left and `g x true` on the
right. `ggmWalk g d x i` is the label that the directions `d` reach at depth `i` from the
root `x`, and `ggmSibling g d x i` the label next to that walk, one level below depth `i`.
A second walk that parts from the first at depth `i` goes through that sibling
(`ggmWalk_of_leave`): the siblings of a walk determine every other leaf.
-/

namespace GgmTree

variable {α : Type*} (g : α → Bool → α)

/-- The label that the directions `d` reach at depth `i`. -/
def ggmWalk (d : ℕ → Bool) (x : α) : ℕ → α
  | 0 => x
  | i + 1 => g (ggmWalk d x i) (d i)

/-- The label next to the walk at depth `i + 1`. -/
def ggmSibling (d : ℕ → Bool) (x : α) (i : ℕ) : α := g (ggmWalk g d x i) (!d i)

theorem ggmWalk_congr {d d' : ℕ → Bool} {x : α} {i : ℕ} (h : ∀ j < i, d j = d' j) :
    ggmWalk g d x i = ggmWalk g d' x i := by
  induction i with
  | zero => rfl
  | succ i ih => rw [ggmWalk, ggmWalk, ih fun j hj => h j (by omega), h i (by omega)]

/-- A walk that parts from `d` at depth `i` goes through the sibling there. -/
theorem ggmWalk_of_leave {d d' : ℕ → Bool} {x : α} {i : ℕ} (hagree : ∀ j < i, d' j = d j)
    (hleave : d' i ≠ d i) : ggmWalk g d' x (i + 1) = ggmSibling g d x i := by
  rw [ggmWalk, ggmSibling, ggmWalk_congr g hagree,
    show d' i = !d i by cases h : d i <;> simp_all]

end GgmTree
