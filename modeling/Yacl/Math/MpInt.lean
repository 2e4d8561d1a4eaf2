import Mathlib.FieldTheory.Finite.Basic
import Yacl.Base.Exception
import Yacl.Lib.Bytes

/-!
# Integers of arbitrary size

The modular operations of `MPInt` (`yacl/math/mpint/mp_int.cc`). They call functions of libtommath,
which compute as the integers do and return `MP_VAL` for arguments that they do not take: a modulus
zero, or a number without an inverse. `MPINT_ENFORCE_OK` turns this error into an exception.
-/

namespace Yacl.Math

open Bytes

/-- `MPInt`. -/
abbrev MPInt := ℤ

/-- `FromMagBytes` with little-endian bytes, which are also the native ones: the first byte is the
least significant. -/
def fromMagBytes : List Byte → MPInt
  | [] => 0
  | b :: bs => b.toNat + 256 * fromMagBytes bs

/-- `MPINT_ENFORCE_OK(call)`, where `p` is the condition for `MP_OKAY`; otherwise the result of the
call is `MP_VAL = -3`. -/
def mpintEnforceOk (p : Prop) [Decidable p] (call : String) : Except Exception Unit :=
  enforce p s!"({call}) == MP_OKAY" "-3 vs 0"

/-- The end of an operation of libtommath: the integer `x` is reduced, with the sign of the
modulus. -/
def mpMod (x mod : MPInt) (call : String) : Except Exception MPInt := do
  mpintEnforceOk (mod ≠ 0) call
  pure (x.fmod mod)

/-- `a.AddMod(b, mod)`. -/
def addMod (a b mod : MPInt) : Except Exception MPInt :=
  mpMod (a + b) mod "mp_addmod(&n_, &b.n_, &mod.n_, &res.n_)"

/-- `a.SubMod(b, mod)`. -/
def subMod (a b mod : MPInt) : Except Exception MPInt :=
  mpMod (a - b) mod "mp_submod(&n_, &b.n_, &mod.n_, &res.n_)"

/-- `a.MulMod(b, mod)`. -/
def mulMod (a b mod : MPInt) : Except Exception MPInt :=
  mpMod (a * b) mod "mp_mulmod(&n_, &b.n_, &mod.n_, &res.n_)"

/-- `a.PowMod(b, mod)` for an exponent that is not negative. -/
def powMod (a : MPInt) (b : ℕ) (mod : MPInt) : Except Exception MPInt := do
  mpintEnforceOk (0 < mod) "mp_exptmod(&n_, &b.n_, &mod.n_, &res.n_)"
  pure (a ^ b % mod)

/-- `a.InvertMod(mod)`, by the extended Euclidean algorithm. -/
def invertMod (a mod : MPInt) : Except Exception MPInt := do
  mpintEnforceOk (1 < mod ∧ Int.gcd a mod = 1) "mp_invmod(&a.n_, &mod.n_, &c->n_)"
  pure (Int.gcdA a mod % mod)

/-! ### The operations in the residue ring -/

section Residues

variable {m : ℕ}

theorem mpMod_eq (hm : 0 < m) (x : ℤ) (call : String) : mpMod x m call = .ok (x % m) := by
  have hne : (m : ℤ) ≠ 0 := by exact_mod_cast hm.ne'
  rw [mpMod, mpintEnforceOk, enforce_of_pos hne,
    Int.fmod_eq_emod_of_nonneg _ (Int.natCast_nonneg m)]
  rfl

theorem addMod_eq (hm : 0 < m) (a b : ℤ) : addMod a b m = .ok ((a + b) % m) := mpMod_eq hm _ _

theorem subMod_eq (hm : 0 < m) (a b : ℤ) : subMod a b m = .ok ((a - b) % m) := mpMod_eq hm _ _

theorem mulMod_eq (hm : 0 < m) (a b : ℤ) : mulMod a b m = .ok (a * b % m) := mpMod_eq hm _ _

theorem powMod_eq (hm : 0 < m) (a : ℤ) (b : ℕ) : powMod a b m = .ok (a ^ b % m) := by
  rw [powMod, mpintEnforceOk, enforce_of_pos (by exact_mod_cast hm)]
  rfl

/-- **The inverse** of a number that is not a multiple of a prime. -/
theorem invertMod_eq [hprime : Fact m.Prime] {a : ℤ} (ha : (a : ZMod m) ≠ 0) :
    ∃ b, invertMod a m = .ok b ∧ (b : ZMod m) = (a : ZMod m)⁻¹ := by
  have hdvd : ¬(m : ℤ) ∣ a := fun h => ha ((ZMod.intCast_zmod_eq_zero_iff_dvd a m).mpr h)
  have hgcd : Int.gcd a m = 1 := by
    have hcop := (Prime.coprime_iff_not_dvd (Nat.prime_iff_prime_int.mp hprime.out)).mpr hdvd
    exact Int.isCoprime_iff_gcd_eq_one.mp hcop.symm
  refine ⟨Int.gcdA a m % m, ?_, ?_⟩
  · rw [invertMod, mpintEnforceOk,
      enforce_of_pos ⟨by exact_mod_cast hprime.out.one_lt, hgcd⟩]
    rfl
  · have hbezout := congrArg (Int.cast : ℤ → ZMod m) (Int.gcd_eq_gcd_ab a m)
    rw [hgcd] at hbezout
    push_cast at hbezout
    rw [ZMod.natCast_self, zero_mul, add_zero] at hbezout
    rw [ZMod.intCast_mod]
    exact eq_inv_of_mul_eq_one_right hbezout.symm

end Residues

end Yacl.Math
