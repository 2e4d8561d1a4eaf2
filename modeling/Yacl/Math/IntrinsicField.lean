import Yacl.Math.GaloisInverse
import Yacl.Math.MpInt

/-!
# The class `IntrinsicField`

The model of `yacl/math/galois_field/factory/intel_factory.h` and `.cc`: the fields `F_{2^64}` and
`F_{2^128}` behind one interface, with the products of `gf_intrinsic.cc` written out again.

**The power is always one.** The loop of `Pow` over `F_{2^64}` runs while the exponent is at least
two and multiplies where it is one, so it never multiplies (`powLoop_eq`); over `F_{2^128}` the
function throws, and with it `Inv`, which calls it. `Inv` over `F_{2^64}` has the chain of products
of `Gf64Inv` and is an inverse.
-/

open Loop BinaryField

namespace Yacl.Math

/-- The types that `IntrinsicField` takes. -/
inductive IntrinsicType where
  | uint64
  | uint128
deriving DecidableEq, Repr

/-- `sizeof(T) * 8`. -/
def IntrinsicType.bits : IntrinsicType → ℕ
  | .uint64 => 64
  | .uint128 => 128

/-! ### Products -/

/-- `kGf128Mod`. -/
def kGf128Mod : BitVec 64 := (1 <<< 7) ||| (1 <<< 2) ||| (1 <<< 1) ||| 1

/-- `kGf64Mod`. -/
def kGf64Mod : BitVec 64 := (1 <<< 4) ||| (1 <<< 3) ||| (1 <<< 1) ||| 1

/-- `cl_mul_128`: the high and the low block. -/
def clMul128 (x y : Uint128) : Uint128 × Uint128 :=
  let low := mmClmulepi64Si128 x y 0x00
  let high := mmClmulepi64Si128 x y 0x11
  let mid1 := mmClmulepi64Si128 x y 0x10
  let mid2 := mmClmulepi64Si128 x y 0x01
  let mid := mid1 ^^^ mid2
  let mid1 := mid >>> 64
  let mid2 := mid <<< 64
  (high ^^^ mid1, low ^^^ mid2)

/-- `reduce_128`. -/
def reduce128 (high low : Uint128) : Uint128 :=
  let modulo := makeUint128 0 kGf128Mod
  let (upper, carry0) := clMul128 high modulo
  let low := low ^^^ carry0
  let (_, carry1) := clMul128 upper modulo
  low ^^^ carry1

/-- `gf_mul_128`. -/
def gfMul128 (x y : Uint128) : Uint128 :=
  let (high, low) := clMul128 x y
  reduce128 high low

/-- `cl_mul_64`. -/
def clMul64 (x y : BitVec 64) : Uint128 :=
  mmClmulepi64Si128 (x.setWidth 128) (y.setWidth 128) 0x00

/-- `reduce_64`. -/
def reduce64 (x : Uint128) : BitVec 64 :=
  let modulo := makeUint128 0 kGf64Mod
  let xb := x
  let temp := mmClmulepi64Si128 modulo xb 0x10
  let xb := xb ^^^ temp
  let temp := mmClmulepi64Si128 modulo temp 0x10
  let xb := xb ^^^ temp
  low64 xb

namespace IntrinsicField

/-- `GetOrder`. -/
def getOrder (t : IntrinsicType) : MPInt := 2 ^ t.bits

/-- `Mul`. -/
def mul : (t : IntrinsicType) → BitVec t.bits → BitVec t.bits → BitVec t.bits
  | .uint64, x, y => reduce64 (clMul64 x y)
  | .uint128, x, y => gfMul128 x y

/-! ### Powers -/

/-- The loop of `Pow`, whose variables are the exponent `i`, `res` and `x_copy`. -/
def powLoop {α : Type} (mul : α → α → α) (i : MPInt) (res xCopy : α) : α :=
  if 2 ≤ i then
    powLoop mul (i.tdiv 2) (if i = 1 then mul res xCopy else res) (mul xCopy xCopy)
  else res
termination_by i.toNat
decreasing_by
  have : (2 : ℤ) ≤ i := ‹_›
  rw [Int.tdiv_eq_ediv_of_nonneg (by omega)]
  omega

/-- `Pow`. -/
def pow : (t : IntrinsicType) → BitVec t.bits → MPInt → Except Exception (BitVec t.bits)
  | .uint64, x, y => pure (powLoop (mul .uint64) y 1 x)
  | .uint128, _, _ => throw (.runtimeError "Not implemented!")

/-- `Inv`. -/
def inv : (t : IntrinsicType) → BitVec t.bits → Except Exception (BitVec t.bits)
  | .uint64, x => do
    enforce (x ≠ 0) "x != 0" ""
    pure (invChain (mul .uint64) x)
  | .uint128, x => do
    enforce (x ≠ 0) "x != 0" ""
    pow .uint128 x (getOrder .uint128 - 2)

/-- The product of `y` factors `x`. -/
def fieldPow (t : IntrinsicType) (x : BitVec t.bits) (y : ℕ) : BitVec t.bits :=
  iterLoop y (fun _ r => mul t r x) 1

/-- **The loop never multiplies** `res`: where it runs, the exponent is not one. -/
theorem powLoop_eq {α : Type} (mul : α → α → α) (i : MPInt) (res xCopy : α) :
    powLoop mul i res xCopy = res := by
  fun_induction powLoop mul i res xCopy with
  | case1 i res xCopy hi ih =>
    have hne : i ≠ 1 := by
      rintro rfl
      exact absurd hi (by decide)
    rw [dif_neg hne] at ih
    rwa [if_neg hne]
  | case2 i res xCopy hi => rfl

theorem pow_uint64 (x : BitVec IntrinsicType.uint64.bits) (y : MPInt) :
    pow .uint64 x y = .ok 1 :=
  congrArg Except.ok (powLoop_eq (mul .uint64) y 1 x)

theorem inv_uint64 {x : BitVec IntrinsicType.uint64.bits} (hx : x ≠ 0) :
    inv .uint64 x = .ok (invChain gf64Mul x) := by
  simp only [inv, enforce_of_pos hx]
  rfl

theorem inv_uint128 {x : BitVec IntrinsicType.uint128.bits} (hx : x ≠ 0) :
    inv .uint128 x = .error (.runtimeError "Not implemented!") := by
  simp only [inv, enforce_of_pos hx]
  rfl

theorem inv_zero (t : IntrinsicType) : inv t 0 = .error (.enforceNotMet "x != 0" "") := by
  cases t <;> rfl

/-- **Powers and inverses.** `Pow` returns the power exactly over `F_{2^64}` where the power is one,
and `Inv` the inverse exactly over `F_{2^64}`, of the elements that are not zero. -/
theorem pow_and_inv_iff (t : IntrinsicType) (x : BitVec t.bits) (y : ℕ) :
    (pow t x y = .ok (fieldPow t x y) ↔ t = .uint64 ∧ fieldPow t x y = 1) ∧
      ((∃ z, inv t x = .ok z ∧ mul t x z = 1) ↔ t = .uint64 ∧ x ≠ 0) := by
  have hzero : x = 0 → ¬∃ z, inv t x = .ok z ∧ mul t x z = 1 := by
    rintro rfl ⟨z, hz, -⟩
    rw [inv_zero] at hz
    contradiction
  cases t with
  | uint64 =>
    refine ⟨?_, ⟨fun h => ⟨rfl, fun hx => hzero hx h⟩, fun h => ?_⟩⟩
    · rw [pow_uint64]
      constructor
      · intro h
        exact ⟨rfl, (Except.ok.inj h).symm⟩
      · rintro ⟨-, h⟩
        rw [h]
    · exact ⟨invChain gf64Mul x, inv_uint64 h.2, mul_invChain h.2⟩
  | uint128 =>
    refine ⟨⟨fun h => by simp [pow] at h, fun h => by simp at h⟩, ⟨?_, fun h => by simp at h⟩⟩
    rintro ⟨z, hz, hmul⟩
    by_cases hx : x = 0
    · exact absurd ⟨z, hz, hmul⟩ (hzero hx)
    · rw [inv_uint128 hx] at hz
      contradiction

/-- `Pow(2, 1)` is not two, and one has no inverse over `F_{2^128}`. -/
theorem pow_two_one_and_inv_one :
    pow .uint64 2 (1 : ℕ) = .ok 1 ∧ fieldPow .uint64 2 1 = 2 ∧
      inv .uint128 1 = .error (.runtimeError "Not implemented!") :=
  ⟨pow_uint64 2 1, by decide +kernel, inv_uint128 (by decide)⟩

end IntrinsicField

end Yacl.Math
