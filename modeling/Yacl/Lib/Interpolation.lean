import Mathlib.LinearAlgebra.Lagrange

/-!
# Polynomials by coefficients and interpolation by weights

A list of coefficients gives a polynomial, with the constant term first. The value of a polynomial
at a point `t` is a sum of its values at other points with weights that do not depend on the
polynomial, if there are more points than its degree. Since the weights are scalars, the same holds
for values that are only known as multiples of an element of a module.
-/

open Polynomial

namespace Interpolation

variable {F : Type*} [Field F]

/-- The polynomial with the given coefficients, the constant term first. -/
noncomputable def ofCoeffs : List F → F[X]
  | [] => 0
  | c :: cs => C c + X * ofCoeffs cs

@[simp]
theorem eval_ofCoeffs_nil (x : F) : (ofCoeffs []).eval x = 0 := eval_zero

@[simp]
theorem eval_ofCoeffs_cons (c : F) (cs : List F) (x : F) :
    (ofCoeffs (c :: cs)).eval x = c + x * (ofCoeffs cs).eval x := by
  rw [ofCoeffs, eval_add, eval_C, eval_mul, eval_X]

theorem coeff_ofCoeffs (cs : List F) (m : ℕ) : (ofCoeffs cs).coeff m = cs.getD m 0 := by
  induction cs generalizing m with
  | nil => simp [ofCoeffs]
  | cons c cs ih =>
    rw [ofCoeffs]
    obtain _ | m := m
    · simp
    · simp [ih]

theorem degree_ofCoeffs_lt (cs : List F) : (ofCoeffs cs).degree < cs.length := by
  rw [degree_lt_iff_coeff_zero]
  intro m hm
  rw [coeff_ofCoeffs, List.getD_eq_getElem?_getD, List.getElem?_eq_none hm, Option.getD_none]

theorem eval_ofCoeffs (cs : List F) (x : F) :
    (ofCoeffs cs).eval x = ∑ i ∈ Finset.range cs.length, cs.getD i 0 * x ^ i := by
  induction cs with
  | nil => simp
  | cons c cs ih =>
    rw [eval_ofCoeffs_cons, ih, List.length_cons, Finset.sum_range_succ', Finset.mul_sum, add_comm]
    congr 1
    · refine Finset.sum_congr rfl fun i _ => ?_
      rw [List.getD_cons_succ]
      ring
    · simp

/-- The weight of point `i` among the first `n` points in the value at `t`. -/
def weight (x : ℕ → F) (n : ℕ) (t : F) (i : ℕ) : F :=
  ∏ j ∈ (Finset.range n).erase i, (x j - t) / (x j - x i)

@[simp]
theorem weight_zero (x : ℕ → F) (t : F) (i : ℕ) : weight x 0 t i = 1 := by
  rw [weight, Finset.range_zero, Finset.erase_empty, Finset.prod_empty]

theorem weight_succ_self (x : ℕ → F) (n : ℕ) (t : F) : weight x (n + 1) t n = weight x n t n := by
  rw [weight, weight, Finset.range_add_one, Finset.erase_insert_eq_erase]

theorem weight_succ_of_ne {n i : ℕ} (h : n ≠ i) (x : ℕ → F) (t : F) :
    weight x (n + 1) t i = (x n - t) / (x n - x i) * weight x n t i := by
  have hnotMem : n ∉ (Finset.range n).erase i := fun h =>
    absurd (Finset.mem_range.mp (Finset.mem_of_mem_erase h)) (Nat.lt_irrefl n)
  rw [weight, weight, Finset.range_add_one, Finset.erase_insert_of_ne h, Finset.prod_insert hnotMem]

/-- **Interpolation.** The weighted sum of the values of a polynomial at enough points is its value
at any point. -/
theorem sum_eval_mul_weight {f : F[X]} {n : ℕ} (hdeg : f.degree < n) {x : ℕ → F}
    (hx : Set.InjOn x (Finset.range n)) (t : F) :
    ∑ i ∈ Finset.range n, f.eval (x i) * weight x n t i = f.eval t := by
  have hf : f = Lagrange.interpolate (Finset.range n) x fun i => f.eval (x i) :=
    Lagrange.eq_interpolate hx (by rwa [Finset.card_range])
  conv_rhs => rw [hf, Lagrange.interpolate_apply, eval_finsetSum]
  refine Finset.sum_congr rfl fun i _ => ?_
  rw [eval_mul, eval_C, Lagrange.basis, eval_prod]
  refine congrArg _ (Finset.prod_congr rfl fun j _ => ?_)
  rw [Lagrange.basisDivisor, eval_mul, eval_C, eval_sub, eval_X, eval_C, ← neg_sub t,
    ← neg_sub (x i) (x j), neg_div_neg_eq, div_eq_inv_mul]

/-- **Interpolation in a module.** -/
theorem sum_weight_smul {M : Type*} [AddCommGroup M] [Module F M] {f : F[X]} {n : ℕ}
    (hdeg : f.degree < n) {x : ℕ → F} (hx : Set.InjOn x (Finset.range n)) (t : F) (m : M) :
    ∑ i ∈ Finset.range n, weight x n t i • f.eval (x i) • m = f.eval t • m := by
  rw [← sum_eval_mul_weight hdeg hx t, Finset.sum_smul]
  refine Finset.sum_congr rfl fun i _ => ?_
  rw [smul_smul, mul_comm]

end Interpolation
