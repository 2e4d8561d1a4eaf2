import Mathlib.Tactic

/-!
# Words from bits

`bitsOf n f` is the `n`-bit word whose bit `i` is `f i`.
-/

namespace Bits

/-- The `n`-bit word whose bit `i` is `f i`. -/
def bitsOf : (n : ℕ) → (ℕ → Bool) → BitVec n
  | 0, _ => 0#0
  | n + 1, f => .cons (f n) (bitsOf n f)

@[simp]
theorem getLsbD_bitsOf (n : ℕ) (f : ℕ → Bool) (i : ℕ) :
    (bitsOf n f).getLsbD i = (decide (i < n) && f i) := by
  induction n with
  | zero => simp
  | succ n ih =>
    rw [bitsOf, BitVec.getLsbD_cons, ih]
    rcases Nat.lt_trichotomy i n with h | rfl | h
    · simp [h, Nat.lt_succ_of_lt h, h.ne]
    · simp
    · simp [h.ne', show ¬i < n + 1 by omega, show ¬i < n by omega]

theorem bitsOf_congr {n : ℕ} {f g : ℕ → Bool} (h : ∀ i < n, f i = g i) :
    bitsOf n f = bitsOf n g := by
  refine BitVec.eq_of_getLsbD_eq fun i hi => ?_
  rw [getLsbD_bitsOf, getLsbD_bitsOf, h i hi]

theorem getLsbD_bitsOf_of_lt {n i : ℕ} (h : i < n) (f : ℕ → Bool) :
    (bitsOf n f).getLsbD i = f i := by
  rw [getLsbD_bitsOf, decide_eq_true h, Bool.true_and]

theorem getLsbD_ite_zero {n : ℕ} (c : Bool) (x : BitVec n) (i : ℕ) :
    (if c then x else 0).getLsbD i = (c && x.getLsbD i) := by
  cases c
  · exact BitVec.getLsbD_zero
  · rfl

end Bits
