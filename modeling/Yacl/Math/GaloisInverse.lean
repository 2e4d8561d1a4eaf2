import Yacl.Math.GaloisField

/-!
# Inverses in `GF(2^64)`

The model of `Gf64Inv` (`yacl/math/galois_field/gf_intrinsic.cc`): a chain of products with three
variables that ends at the power `2 ^ 64 - 2`. The chain is `invChain`, for any product; the class
`IntrinsicField` has it too.

**The modulus is irreducible** (`irreducible_kGfMod64`), by Rabin's test: `64` squarings take the
residue of `X` back to itself, and `32` of them do not fix it, with an inverse of the difference.
Fermat's theorem then makes the power the inverse.
-/

open Loop BinaryField

namespace Yacl.Math

/-! ### The chain of products -/

section Chain

variable {α : Type}

/-- `n` lines that square a variable. -/
def squareTimes (mul : α → α → α) (n : ℕ) (t : α) : α := iterLoop n (fun _ t => mul t t) t

/-- The chain of products of `Gf64Inv`. The lines `Gf64Mul(t0, t0, &t0)` that follow each other are
written as one. -/
def invChain (mul : α → α → α) (x : α) : α :=
  let t0 := x
  let t1 := mul t0 t0
  let t2 := mul t1 t0
  let t0 := mul t2 t2
  let t0 := squareTimes mul 1 t0
  let t1 := mul t1 t0
  let t2 := mul t2 t0
  let t0 := mul t2 t2
  let t0 := squareTimes mul 3 t0
  let t1 := mul t1 t0
  let t2 := mul t2 t0
  let t0 := mul t2 t2
  let t0 := squareTimes mul 7 t0
  let t1 := mul t1 t0
  let t2 := mul t2 t0
  let t0 := mul t2 t2
  let t0 := squareTimes mul 15 t0
  let t1 := mul t1 t0
  let t0 := mul t0 t2
  -- the loop `for (int i = 0; i < 32; i++)`
  let t0 := squareTimes mul 32 t0
  mul t0 t1

variable {M : Type*} [CommMonoid M] {mul : α → α → α} {φ : α → M}

theorem map_squareTimes (h : ∀ x y, φ (mul x y) = φ x * φ y) (n : ℕ) (t : α) :
    φ (squareTimes mul n t) = φ t ^ 2 ^ n := by
  induction n with
  | zero => rw [pow_zero, pow_one]; rfl
  | succ n ih =>
    rw [squareTimes, iterLoop_succ, h, ← squareTimes, ih, ← pow_add, ← two_mul, ← pow_succ']

/-- **The chain computes the power `2 ^ 64 - 2`.** -/
theorem map_invChain (h : ∀ x y, φ (mul x y) = φ x * φ y) (x : α) :
    φ (invChain mul x) = φ x ^ (2 ^ 64 - 2) := by
  simp only [invChain, h, map_squareTimes h, ← pow_two, ← pow_mul, ← pow_add, ← pow_succ]
  norm_num

end Chain

/-- `Gf64Inv`. -/
def gf64Inv (x : BitVec 64) : BitVec 64 := invChain gf64Mul x

/-! ### The modulus -/

/-- The residue of `X` after `32` squarings. -/
def frobenius32 : BitVec 64 := 6656922126492271877

theorem squareTimes_two : squareTimes gf64Mul 32 2 = frobenius32 := by decide +kernel

theorem squareTimes_frobenius32 : squareTimes gf64Mul 32 frobenius32 = 2 := by decide +kernel

theorem gf64Mul_frobenius32 : gf64Mul (frobenius32 ^^^ 2) 6037868468195985863 = 1 := by
  decide +kernel

theorem elem_two : (elem kGfMod64 (2 : BitVec 64) : Gf64) = AdjoinRoot.root (modulus kGfMod64) :=
  (root_eq_elem kGfMod64 (by omega)).symm

theorem elem_squareTimes (n : ℕ) (x : BitVec 64) :
    (elem kGfMod64 (squareTimes gf64Mul n x) : Gf64) = elem kGfMod64 x ^ 2 ^ n :=
  map_squareTimes elem_gf64Mul n x

theorem elem_frobenius32 :
    (elem kGfMod64 frobenius32 : Gf64) = AdjoinRoot.root (modulus kGfMod64) ^ 2 ^ 32 := by
  rw [← squareTimes_two, elem_squareTimes, elem_two]

/-- **The modulus `x^64 + x^4 + x^3 + x + 1` is irreducible.** -/
theorem irreducible_kGfMod64 : Irreducible (modulus kGfMod64) := by
  refine irreducible_modulus (by omega) ?_ ?_
  · rw [show 2 ^ 64 = 2 ^ 32 * 2 ^ 32 by norm_num, pow_mul, ← elem_frobenius32,
      ← elem_squareTimes, squareTimes_frobenius32, elem_two]
  · intro r hr hdvd
    -- two is the only prime that divides the degree
    have htwo : r = 2 := (Nat.prime_dvd_prime_iff_eq hr Nat.prime_two).mp
      (hr.dvd_of_dvd_pow (show r ∣ 2 ^ 6 from hdvd))
    rw [htwo, ← elem_frobenius32, ZModModule.sub_eq_add, ← elem_two, ← elem_xor]
    refine IsUnit.of_mul_eq_one (elem kGfMod64 (6037868468195985863 : BitVec 64)) ?_
    rw [← elem_gf64Mul, gf64Mul_frobenius32]
    exact elem_one kGfMod64 (by omega)

/-! ### Inverses -/

theorem mul_invChain {x : BitVec 64} (hx : x ≠ 0) : gf64Mul x (invChain gf64Mul x) = 1 := by
  have hne : (elem kGfMod64 x : Gf64) ≠ 0 := by
    intro hzero
    rw [← elem_zero kGfMod64 64] at hzero
    exact hx (elem_injective kGfMod64 hzero)
  refine elem_injective kGfMod64 ?_
  rw [elem_gf64Mul, map_invChain elem_gf64Mul, ← pow_succ', show 2 ^ 64 - 2 + 1 = 2 ^ 64 - 1 by
    norm_num, pow_two_pow_sub_one irreducible_kGfMod64 hne]
  exact (elem_one kGfMod64 (by omega)).symm

/-- **The inverse.** Every word that is not zero has the product one with `Gf64Inv` of it. -/
theorem gf64Mul_gf64Inv (x : BitVec 64) (hx : x ≠ 0) : gf64Mul x (gf64Inv x) = 1 :=
  mul_invChain hx

theorem gf64Mul_gf64Inv_two : gf64Mul 2 (gf64Inv 2) = 1 :=
  gf64Mul_gf64Inv 2 (by decide)

end Yacl.Math
