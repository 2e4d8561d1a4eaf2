import Yacl.Lib.Bytes
import Yacl.Math.MpInt

/-!
# Groups of prime order

The interface `EcGroup` of `yacl/crypto/ecc/ecc_spi.h`, as far as the modelled programs use it. The
points are the elements of a commutative group, the curve library behind the interface computes in
it, and the group has prime order. A point has one serialization, whatever its representation.
-/

open Yacl.Math

namespace Yacl.Crypto

/-- `EcGroup`, over points of the type `P`, with the laws of a group of prime order as fields. -/
structure EcGroup (P : Type) [AddCommGroup P] where
  /-- `GetGenerator()`. -/
  generator : P
  /-- `GetOrder()`. -/
  order : ℕ
  /-- `SerializePoint(point)`. -/
  serializePoint : P → List Bytes.Byte
  /-- What `SerializePoint(point, buf, len)` writes to a buffer of `GetSerializeLength()` bytes. -/
  serializePointTo : P → List Bytes.Byte
  order_prime : order.Prime
  order_nsmul : ∀ x : P, order • x = 0
  generator_ne_zero : generator ≠ 0

namespace EcGroup

variable {P : Type} [AddCommGroup P] (E : EcGroup P)

/-- `Add(p1, p2)`. -/
def add (_ : EcGroup P) (p1 p2 : P) : P := p1 + p2

/-- `Mul(point, scalar)`, where the scalar can be negative. -/
def mul (_ : EcGroup P) (point : P) (scalar : MPInt) : P := scalar • point

/-- `MulBase(scalar)`. -/
def mulBase (scalar : MPInt) : P := scalar • E.generator

/-- `PointEqual(p1, p2)`. -/
def pointEqual [DecidableEq P] (_ : EcGroup P) (p1 p2 : P) : Bool := p1 = p2

instance : Fact E.order.Prime := ⟨E.order_prime⟩

/-- The points are a vector space over the field of scalars. -/
instance : Module (ZMod E.order) P := AddCommGroup.zmodModule E.order_nsmul

theorem order_pos : 0 < E.order := E.order_prime.pos

theorem mul_eq_smul (point : P) (scalar : MPInt) :
    E.mul point scalar = (scalar : ZMod E.order) • point :=
  (Int.cast_smul_eq_zsmul (ZMod E.order) scalar point).symm

theorem mulBase_eq_smul (scalar : MPInt) :
    E.mulBase scalar = (scalar : ZMod E.order) • E.generator :=
  E.mul_eq_smul E.generator scalar

/-- **The discrete logarithm** to the base of the generator is unique modulo the order. -/
theorem smul_generator_inj {a b : ZMod E.order} :
    a • E.generator = b • E.generator ↔ a = b :=
  (smul_left_injective (ZMod E.order) E.generator_ne_zero).eq_iff

end EcGroup

/-- The integers modulo five as a group of prime order. -/
def ecGroupFive : EcGroup (ZMod 5) where
  generator := 1
  order := 5
  serializePoint x := [BitVec.ofNat 8 x.val]
  serializePointTo x := [BitVec.ofNat 8 x.val]
  order_prime := Nat.prime_five
  order_nsmul := by decide
  generator_ne_zero := by decide

end Yacl.Crypto
