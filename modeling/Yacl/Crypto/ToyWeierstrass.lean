import Mathlib.AlgebraicGeometry.EllipticCurve.Affine.Point
import Yacl.Math.MpInt
import Yacl.Math.SlowCustomPow

/-!
# The toy implementation of Weierstrass curves

The class `ToyWeierstrassGroup` (`yacl/crypto/ecc/toy/weierstrass.cc`) computes with affine
coordinates and has `(0, 0)` for the point at infinity. This works for the curves
`y ^ 2 = x ^ 3 + A * x + B` of odd prime order (`OddPrimeOrderCurve`): no point has `y = 0`, as it
would have order two. Doubling divides by `2 * y`, and the negation of such a point would not be
reduced. In particular the origin is not on the curve, so `B` is not zero.

The group law is that of Mathlib. `encode` takes its points to the reduced points of the program
(`range_encode`), and the operations of the program are those of the group (`add_encode`,
`negate_encode`, `mul_encode`).
-/

open Yacl.Math

namespace Yacl.Crypto

/-- `AffinePoint`. -/
@[ext]
structure AffinePoint where
  x : MPInt
  y : MPInt
deriving DecidableEq, Repr

/-- `CurveParam`. -/
structure CurveParam where
  A : MPInt
  B : MPInt
  p : MPInt
  n : MPInt

namespace ToyWeierstrassGroup

/-- `kInfPoint`. -/
def kInfPoint : AffinePoint := { x := 0, y := 0 }

/-- `IsInfinity`. -/
def isInfinity (point : AffinePoint) : Bool := point.x = 0 && point.y = 0

section

variable (params : CurveParam)

/-- The static `MPInt::MulMod(a, b, mod, &d)`. -/
def mulModTo (a b mod : MPInt) : Except Exception MPInt :=
  mpMod (a * b) mod "mp_mulmod(&a.n_, &b.n_, &mod.n_, &d->n_)"

/-- The value of `lambda` in `Add`. -/
def slope (p1 p2 : AffinePoint) : Except Exception MPInt :=
  if p1.x = p2.x then do
    let inverse ← invertMod (p1.y * 2) params.p
    mulModTo (p1.x ^ 2 * 3 + params.A) inverse params.p
  else do
    let diff ← subMod p2.x p1.x params.p
    let inverse ← invertMod diff params.p
    mulModTo (p2.y - p1.y) inverse params.p

/-- `Add`. -/
def add (p1 p2 : AffinePoint) : Except Exception AffinePoint :=
  if isInfinity p1 then pure p2
  else if isInfinity p2 then pure p1
  else if p1.x = p2.x ∧ p1.y ≠ p2.y then pure kInfPoint
  else do
    let lambda ← slope params p1 p2
    let x3 ← subMod (lambda ^ 2) (p1.x + p2.x) params.p
    let y3 ← subMod (lambda * (p1.x - x3)) p1.y params.p
    pure { x := x3, y := y3 }

/-- `Negate`. -/
def negate (point : AffinePoint) : AffinePoint :=
  if isInfinity point then point else { x := point.x, y := params.p - point.y }

/-- `Mul`. -/
def mul (point : AffinePoint) (scalar : MpInt) : Except Exception AffinePoint :=
  if isInfinity point then pure kInfPoint
  else do
    let rem ← mpMod scalar.toInt params.n "mp_mod(&a.n_, &mod.n_, &c->n_)"
    if rem = 0 then pure kInfPoint
    else do
      let res ← slowCustomPow (add params) kInfPoint point scalar.abs
      pure (if scalar.isNeg then negate params res else res)

/-- `IsInCurveGroup`. -/
def isInCurveGroup (point : AffinePoint) : Except Exception Bool :=
  if isInfinity point then pure true
  else do
    let rem ← mpMod (point.y ^ 2 - point.x ^ 3 - params.A * point.x - params.B) params.p
      "mp_mod(&a.n_, &mod.n_, &c->n_)"
    pure (rem = 0)

end

/-! ### The curves -/

/-- The curve `y ^ 2 = x ^ 3 + A * x + B` modulo `p`. -/
def weierstrass (A B : MPInt) (p : ℕ) : WeierstrassCurve.Affine (ZMod p) :=
  { a₁ := 0, a₂ := 0, a₃ := 0, a₄ := A, a₆ := B }

/-- The parameters of a non-singular curve of odd prime order. -/
structure OddPrimeOrderCurve where
  A : MPInt
  B : MPInt
  p : ℕ
  n : ℕ
  prime_p : p.Prime
  three_lt : 3 < p
  nonsingular : (4 * A ^ 3 + 27 * B ^ 2 : ZMod p) ≠ 0
  card_eq : Nat.card (weierstrass A B p).Point = n
  prime_n : n.Prime
  odd_n : Odd n

namespace OddPrimeOrderCurve

variable (C : OddPrimeOrderCurve)

/-- The parameters as the program has them. -/
def params : CurveParam := { A := C.A, B := C.B, p := C.p, n := C.n }

/-- The curve. -/
def curve : WeierstrassCurve.Affine (ZMod C.p) := weierstrass C.A C.B C.p

instance : Fact C.p.Prime := ⟨C.prime_p⟩

/-- The representation of a point. -/
def encode : C.curve.Point → AffinePoint
  | .zero => kInfPoint
  | .some x y _ => { x := x.val, y := y.val }

/-- The points that the program accepts, with reduced coordinates. -/
def IsReduced (point : AffinePoint) : Prop :=
  (0 ≤ point.x ∧ point.x < C.p) ∧ (0 ≤ point.y ∧ point.y < C.p) ∧
    isInCurveGroup C.params point = .ok true

theorem two_ne_zero : (2 : ZMod C.p) ≠ 0 := by
  intro h
  have hdvd : C.p ∣ 2 := (ZMod.natCast_eq_zero_iff 2 C.p).1 (by exact_mod_cast h)
  have := Nat.le_of_dvd Nat.two_pos hdvd
  have := C.three_lt
  omega

theorem discriminant_ne_zero : C.curve.Δ ≠ 0 := by
  have h : C.curve.Δ = -(2 ^ 4 * (4 * C.A ^ 3 + 27 * C.B ^ 2)) := by
    simp only [WeierstrassCurve.Δ, WeierstrassCurve.b₂, WeierstrassCurve.b₄, WeierstrassCurve.b₆,
      curve, weierstrass]
    ring
  rw [h]
  exact neg_ne_zero.2 (mul_ne_zero (pow_ne_zero 4 C.two_ne_zero) C.nonsingular)

theorem equation_iff (x y : ZMod C.p) :
    C.curve.Equation x y ↔ y ^ 2 = x ^ 3 + C.A * x + C.B := by
  rw [WeierstrassCurve.Affine.equation_iff]
  simp only [curve, weierstrass, zero_mul, add_zero]

theorem negY_eq (x y : ZMod C.p) : C.curve.negY x y = -y := by
  simp only [WeierstrassCurve.Affine.negY, curve, weierstrass, zero_mul, sub_zero]

theorem add_self_ne_zero {Q : C.curve.Point} (hQ : Q ≠ 0) : Q + Q ≠ 0 := by
  intro h
  have htwo : addOrderOf Q ∣ 2 := addOrderOf_dvd_of_nsmul_eq_zero (by rw [two_nsmul, h])
  have hcard : addOrderOf Q ∣ C.n := by
    rw [← C.card_eq]
    exact addOrderOf_dvd_natCard Q
  have hone := Nat.dvd_gcd htwo hcard
  rw [Nat.Coprime.gcd_eq_one (Nat.coprime_two_left.2 C.odd_n), Nat.dvd_one] at hone
  exact hQ (AddMonoid.addOrderOf_eq_one_iff.1 hone)

theorem y_ne_zero {x y : ZMod C.p} (h : C.curve.Nonsingular x y) : y ≠ 0 := by
  rintro rfl
  refine C.add_self_ne_zero (WeierstrassCurve.Affine.Point.some_ne_zero h) ?_
  refine WeierstrassCurve.Affine.Point.add_self_of_Y_eq ?_
  rw [negY_eq, neg_zero]

/-! ### The representation -/

@[simp]
theorem encode_zero : C.encode 0 = kInfPoint := rfl

theorem isInfinity_encode_some {x y : ZMod C.p} (h : C.curve.Nonsingular x y) :
    isInfinity (C.encode (.some x y h)) = false := by
  have hy : ((y.val : ℕ) : ℤ) ≠ 0 := Int.natCast_ne_zero.2 ((ZMod.val_ne_zero y).2 (C.y_ne_zero h))
  rw [isInfinity, encode, decide_eq_false hy, Bool.and_false]

theorem encode_injective : Function.Injective C.encode := by
  rintro (_ | ⟨x₁, y₁, h₁⟩) (_ | ⟨x₂, y₂, h₂⟩) h
  · rfl
  · have := congrArg isInfinity h
    rw [isInfinity_encode_some] at this
    contradiction
  · have := congrArg isInfinity h
    rw [isInfinity_encode_some] at this
    contradiction
  · obtain ⟨hx, hy⟩ := AffinePoint.mk.inj h
    obtain rfl := ZMod.val_injective _ (Int.natCast_inj.1 hx)
    obtain rfl := ZMod.val_injective _ (Int.natCast_inj.1 hy)
    rfl

theorem emod_eq_val {z : ℤ} {r : ZMod C.p} (h : (z : ZMod C.p) = r) : z % C.p = r.val := by
  rw [← h, ZMod.val_intCast]

theorem isInCurveGroup_iff {point : AffinePoint} (h : isInfinity point = false) :
    isInCurveGroup C.params point = .ok true ↔
      C.curve.Equation (point.x : ZMod C.p) (point.y : ZMod C.p) := by
  have hmod := mpMod_eq C.prime_p.pos
    (point.y ^ 2 - point.x ^ 3 - C.A * point.x - C.B) "mp_mod(&a.n_, &mod.n_, &c->n_)"
  have hcast := ZMod.intCast_zmod_eq_zero_iff_dvd
    (point.y ^ 2 - point.x ^ 3 - C.A * point.x - C.B) C.p
  rw [Int.dvd_iff_emod_eq_zero] at hcast
  rw [isInCurveGroup, h, params, hmod, equation_iff]
  constructor
  · intro heq
    have hzero := hcast.2 (of_decide_eq_true (Except.ok.inj heq))
    push_cast at hzero
    linear_combination hzero
  · intro heq
    refine congrArg Except.ok (decide_eq_true (hcast.1 ?_))
    push_cast
    linear_combination heq

/-- **The points of the program** are those of the curve. -/
theorem range_encode : Set.range C.encode = { point | C.IsReduced point } := by
  ext point
  constructor
  · rintro ⟨_ | ⟨x, y, h⟩, rfl⟩
    · have hp : (0 : ℤ) < C.p := Int.natCast_pos.2 C.prime_p.pos
      exact ⟨⟨le_rfl, hp⟩, ⟨le_rfl, hp⟩, rfl⟩
    · refine ⟨⟨Int.natCast_nonneg _, Int.ofNat_lt.2 (ZMod.val_lt x)⟩,
        ⟨Int.natCast_nonneg _, Int.ofNat_lt.2 (ZMod.val_lt y)⟩, ?_⟩
      rw [isInCurveGroup_iff C (C.isInfinity_encode_some h), encode]
      simpa using h.1
  · rintro ⟨⟨hx0, hx⟩, ⟨hy0, hy⟩, hcurve⟩
    by_cases hinf : isInfinity point = true
    · refine ⟨0, ?_⟩
      simp only [isInfinity, Bool.and_eq_true, decide_eq_true_eq] at hinf
      exact (AffinePoint.ext hinf.1 hinf.2).symm
    · rw [isInCurveGroup_iff C (Bool.eq_false_of_not_eq_true hinf)] at hcurve
      refine ⟨.some _ _ ((WeierstrassCurve.Affine.equation_iff_nonsingular_of_Δ_ne_zero
        C.discriminant_ne_zero).1 hcurve), AffinePoint.ext ?_ ?_⟩
      · exact (ZMod.val_intCast _).trans (Int.emod_eq_of_lt hx0 hx)
      · exact (ZMod.val_intCast _).trans (Int.emod_eq_of_lt hy0 hy)

/-! ### The operations -/

theorem mulModTo_eq (a b : ℤ) {r : ZMod C.p} (h : (a * b : ZMod C.p) = r) :
    mulModTo a b C.p = .ok (r.val : ℤ) := by
  rw [mulModTo, mpMod_eq C.prime_p.pos, C.emod_eq_val (by push_cast; exact h)]

theorem subMod_eq_val (a b : ℤ) {r : ZMod C.p} (h : (a - b : ZMod C.p) = r) :
    subMod a b C.p = .ok (r.val : ℤ) := by
  rw [subMod_eq C.prime_p.pos, C.emod_eq_val (by push_cast; exact h)]

/-- **The slope** of the line through two points that are not opposite. -/
theorem slope_encode {x₁ y₁ x₂ y₂ : ZMod C.p} (h₁ : C.curve.Nonsingular x₁ y₁)
    (h₂ : C.curve.Nonsingular x₂ y₂) (hne : ¬(x₁ = x₂ ∧ y₁ = C.curve.negY x₂ y₂)) :
    slope C.params (C.encode (.some x₁ y₁ h₁)) (C.encode (.some x₂ y₂ h₂)) =
      .ok ((C.curve.slope x₁ x₂ y₁ y₂).val : ℤ) := by
  have hcond : (C.encode (.some x₁ y₁ h₁)).x = (C.encode (.some x₂ y₂ h₂)).x ↔ x₁ = x₂ := by
    simp only [encode, Int.natCast_inj, (ZMod.val_injective C.p).eq_iff]
  rw [slope, if_congr hcond rfl rfl]
  dsimp only [encode]
  by_cases hx : x₁ = x₂
  · have hy : y₁ ≠ C.curve.negY x₂ y₂ := fun hy => hne ⟨hx, hy⟩
    rw [if_pos hx, WeierstrassCurve.Affine.slope_of_Y_ne hx hy, negY_eq]
    have hdouble : ((y₁.val * 2 : ℤ) : ZMod C.p) = 2 * y₁ := by
      push_cast
      rw [ZMod.natCast_zmod_val, mul_comm]
    obtain ⟨b, hinv, hb⟩ := invertMod_eq
      (by rw [hdouble]; exact mul_ne_zero C.two_ne_zero (C.y_ne_zero h₁))
    rw [params, hinv]
    refine C.mulModTo_eq _ _ ?_
    rw [hb, sub_neg_eq_add]
    push_cast
    simp only [ZMod.natCast_zmod_val, curve, weierstrass]
    ring
  · rw [if_neg hx, WeierstrassCurve.Affine.slope_of_X_ne hx]
    have hdiff := C.subMod_eq_val x₂.val x₁.val (r := x₂ - x₁) (by simp)
    rw [params, hdiff, ok_bind]
    obtain ⟨b, hinv, hb⟩ := invertMod_eq (m := C.p) (a := (x₂ - x₁).val)
      (by simpa [sub_eq_zero] using Ne.symm hx)
    rw [hinv]
    refine C.mulModTo_eq _ _ ?_
    rw [hb, ← neg_sub y₂, ← neg_sub x₂, neg_div_neg_eq, div_eq_mul_inv]
    push_cast
    simp only [ZMod.natCast_zmod_val]

/-- **`Add` is the group law.** -/
theorem add_encode (Q₁ Q₂ : C.curve.Point) :
    add C.params (C.encode Q₁) (C.encode Q₂) = .ok (C.encode (Q₁ + Q₂)) := by
  obtain _ | ⟨x₁, y₁, h₁⟩ := Q₁
  · rfl
  obtain _ | ⟨x₂, y₂, h₂⟩ := Q₂
  · rw [← WeierstrassCurve.Affine.Point.zero_def, add, C.isInfinity_encode_some]
    rfl
  rw [add, C.isInfinity_encode_some, C.isInfinity_encode_some]
  have hcond : ((C.encode (.some x₁ y₁ h₁)).x = (C.encode (.some x₂ y₂ h₂)).x ∧
      (C.encode (.some x₁ y₁ h₁)).y ≠ (C.encode (.some x₂ y₂ h₂)).y) ↔ x₁ = x₂ ∧ y₁ ≠ y₂ := by
    simp only [encode, Int.natCast_inj, ne_eq, (ZMod.val_injective C.p).eq_iff]
  rw [if_congr hcond rfl rfl]
  by_cases hopp : x₁ = x₂ ∧ y₁ ≠ y₂
  · have hneg := (WeierstrassCurve.Affine.Y_eq_of_X_eq h₁.1 h₂.1 hopp.1).resolve_left hopp.2
    rw [if_pos hopp, WeierstrassCurve.Affine.Point.add_of_Y_eq hopp.1 hneg]
    rfl
  · -- two points with the same `y` are not opposite, as `y` is not zero
    have hne : ¬(x₁ = x₂ ∧ y₁ = C.curve.negY x₂ y₂) := by
      rintro ⟨hx, hy⟩
      have heq : y₁ = y₂ := not_not.1 fun hne => hopp ⟨hx, hne⟩
      rw [negY_eq, ← heq, eq_neg_iff_add_eq_zero, ← two_mul] at hy
      exact mul_ne_zero C.two_ne_zero (C.y_ne_zero h₁) hy
    rw [if_neg hopp, C.slope_encode h₁ h₂ hne, ok_bind,
      WeierstrassCurve.Affine.Point.add_some hne]
    set l := C.curve.slope x₁ x₂ y₁ y₂
    have hx3 := C.subMod_eq_val ((l.val : ℤ) ^ 2) (x₁.val + x₂.val)
      (r := C.curve.addX x₁ x₂ l) (by
        push_cast
        simp only [ZMod.natCast_zmod_val, WeierstrassCurve.Affine.addX, curve, weierstrass]
        ring)
    have hy3 := C.subMod_eq_val (l.val * (x₁.val - (C.curve.addX x₁ x₂ l).val)) y₁.val
      (r := C.curve.addY x₁ x₂ y₁ l) (by
        push_cast
        simp only [ZMod.natCast_zmod_val, WeierstrassCurve.Affine.addY, negY_eq,
          WeierstrassCurve.Affine.negAddY]
        ring)
    simp only [encode, params]
    rw [hx3, ok_bind, hy3]
    rfl

/-- **`Negate` is the inverse.** -/
theorem negate_encode (Q : C.curve.Point) : negate C.params (C.encode Q) = C.encode (-Q) := by
  obtain _ | ⟨x, y, h⟩ := Q
  · rfl
  · rw [negate, C.isInfinity_encode_some, if_neg Bool.false_ne_true,
      WeierstrassCurve.Affine.Point.neg_some, encode, encode, params]
    refine AffinePoint.ext rfl ?_
    have hy : NeZero y := ⟨C.y_ne_zero h⟩
    rw [negY_eq, ZMod.val_neg_of_ne_zero, Nat.cast_sub (ZMod.val_lt y).le]

/-- **`Mul` is the multiple**, for scalars of any sign and size. -/
theorem mul_encode (Q : C.curve.Point) (k : ValidMpInt) :
    mul C.params (C.encode Q) k.1 = .ok (C.encode (k.1.toInt • Q)) := by
  obtain _ | ⟨x, y, h⟩ := Q
  · rw [← WeierstrassCurve.Affine.Point.zero_def, zsmul_zero]
    rfl
  generalize hQ : WeierstrassCurve.Affine.Point.some x y h = Q
  have hfinite : isInfinity (C.encode Q) = false := hQ ▸ C.isInfinity_encode_some h
  have hmod := mpMod_eq C.prime_n.pos k.1.toInt "mp_mod(&a.n_, &mod.n_, &c->n_)"
  have hpow := slowCustomPow_eq C.add_encode Q k.1.abs
    ⟨k.2.used_le, k.2.digit_lt, k.2.digit_zero⟩ rfl
  have horder : C.n • Q = 0 := by
    rw [← C.card_eq]
    exact card_nsmul_eq_zero'
  rw [mul, hfinite]
  simp only [params] at hpow hmod ⊢
  rw [hmod, ok_bind]
  by_cases hdvd : k.1.toInt % C.n = 0
  · rw [if_pos hdvd]
    obtain ⟨j, hj⟩ := Int.dvd_of_emod_eq_zero hdvd
    rw [hj, mul_comm, mul_smul, natCast_zsmul, horder, zsmul_zero]
    rfl
  · rw [if_neg hdvd, ← C.encode_zero, hpow, MpInt.toInt, MpInt.isNeg]
    cases k.1.sign with
    | zpos => rw [MpSign.apply]; rfl
    | neg => rw [MpSign.apply, neg_zsmul, ← C.negate_encode]; rfl

/-- **The group of the toy library.** The reduced points of the program stand for the points of the
curve, one for each. `Add`, `Negate` and `Mul` are the operations of the group. -/
theorem toyWeierstrassGroup_law :
    (Set.range C.encode = { point | C.IsReduced point } ∧ Function.Injective C.encode) ∧
      (∀ Q₁ Q₂, add C.params (C.encode Q₁) (C.encode Q₂) = .ok (C.encode (Q₁ + Q₂))) ∧
      (∀ Q, negate C.params (C.encode Q) = C.encode (-Q)) ∧
      ∀ Q (k : ValidMpInt), mul C.params (C.encode Q) k.1 = .ok (C.encode (k.1.toInt • Q)) :=
  ⟨⟨C.range_encode, C.encode_injective⟩, C.add_encode, C.negate_encode, C.mul_encode⟩

end OddPrimeOrderCurve

/-! ### A curve -/

theorem card_point {A B : MPInt} {p : ℕ} [Fact p.Prime] (h : (weierstrass A B p).Δ ≠ 0) :
    Nat.card (weierstrass A B p).Point =
      Fintype.card { q : ZMod p × ZMod p // q.2 ^ 2 = q.1 ^ 3 + A * q.1 + B } + 1 := by
  have hiff (q : ZMod p × ZMod p) : (weierstrass A B p).Nonsingular q.1 q.2 ↔
      q.2 ^ 2 = q.1 ^ 3 + A * q.1 + B := by
    rw [← WeierstrassCurve.Affine.equation_iff_nonsingular_of_Δ_ne_zero h,
      WeierstrassCurve.Affine.equation_iff]
    simp only [weierstrass, zero_mul, add_zero]
  have hequiv : (weierstrass A B p).Point ≃
      Option { q : ZMod p × ZMod p // q.2 ^ 2 = q.1 ^ 3 + A * q.1 + B } :=
    (WeierstrassCurve.Affine.nonsingularPointEquiv _).trans
      (Equiv.subtypeEquivRight hiff).optionCongr
  rw [Nat.card_congr hequiv, Nat.card_eq_fintype_card, Fintype.card_option]

/-- The curve `y ^ 2 = x ^ 3 + 2 * x + 1` modulo five, which has seven points. -/
def curveFive : OddPrimeOrderCurve where
  A := 2
  B := 1
  p := 5
  n := 7
  prime_p := Nat.prime_five
  three_lt := by decide
  nonsingular := by decide
  card_eq := (@card_point 2 1 5 ⟨Nat.prime_five⟩ (by decide)).trans (by decide)
  prime_n := by decide
  odd_n := by decide

/-- Nine times the point `(0, 1)`, which is the double of it, and the opposite of this. -/
example : mul curveFive.params ⟨0, 1⟩ (MpInt.ofInt 9) = .ok ⟨1, 3⟩ ∧
    mul curveFive.params ⟨0, 1⟩ (MpInt.ofInt (-9)) = .ok ⟨1, 2⟩ := by
  decide +kernel

end ToyWeierstrassGroup

end Yacl.Crypto
