import Yacl.Lib.Loop
import Yacl.Math.Tommath

/-!
# Double and add

`MPInt::SlowCustomPow` (`yacl/math/mpint/mp_int.h`): the multiple of an element by a scalar, for an
operation that the caller supplies. The digits of the scalar are read from the lowest to the highest
one. Every digit but the last takes `MP_DIGIT_BIT` steps, whatever its value; the last one stops
when no bit is left, and the doubling after its last bit is left out.

`slowCustomPow_eq` is over any representation of an additive monoid for which the operation adds.
-/

open Loop Radix

namespace Yacl.Math

namespace MpInt

/-- `mp_iszero`. -/
def isZero (a : MpInt) : Bool := a.used = 0

/-- `mp_isneg`. -/
def isNeg (a : MpInt) : Bool := a.sign = .neg

/-- `mp_abs`. -/
def abs (a : MpInt) : MpInt := { a with sign := .zpos }

end MpInt

section

variable {T : Type} (combineInplace : T → T → Except Exception T)

/-- The variables of `SlowCustomPow`. -/
structure CustomPow (T : Type) where
  res : T
  s : T
  e : ℕ

/-- `if (e & 1) { combine_inplace(&res, s); }`. -/
def combineBit (t : CustomPow T) : Except Exception T :=
  if t.e &&& 1 ≠ 0 then combineInplace t.res t.s else pure t.res

/-- A step for one of the lower digits. -/
def customPowStep (t : CustomPow T) : Except Exception (CustomPow T) := do
  let res ← combineBit combineInplace t
  let s ← combineInplace t.s t.s
  pure { res := res, s := s, e := t.e >>> 1 }

/-- `if (e != 0) { combine_inplace(&s, s); }`, for the bits `e` that are left. -/
def doubleUnlessLast (e : ℕ) (s : T) : Except Exception T :=
  if e ≠ 0 then combineInplace s s else pure s

/-- A step for the last digit. -/
def customPowLastStep (t : CustomPow T) : Except Exception (CustomPow T) := do
  let res ← combineBit combineInplace t
  let s ← doubleUnlessLast combineInplace (t.e >>> 1) t.s
  pure { res := res, s := s, e := t.e >>> 1 }

/-- The steps for digit `digitIdx`. -/
def customPowDigit (scalar : MpInt) (digitIdx : ℕ) (t : CustomPow T) :
    Except Exception (CustomPow T) := do
  let e ← vecGet scalar.dp digitIdx
  forLoop mpDigitBit (fun _ => customPowStep combineInplace) { t with e := e }

/-- `MPInt::SlowCustomPow`. -/
def slowCustomPow (identity base : T) (scalar : MpInt) : Except Exception T := do
  enforce (scalar.isNeg = false) "!scalar.IsNegative()" s!"scalar must >= 0, get {scalar.toInt}"
  if scalar.isZero then
    pure identity
  else do
    let t ← forLoop (scalar.used - 1) (customPowDigit combineInplace scalar)
      { res := identity, s := base, e := 0 }
    let e ← vecGet scalar.dp (scalar.used - 1)
    let t ← whileLoop .nonTermination (fun t : CustomPow T => t.e ≠ 0)
      (customPowLastStep combineInplace) (2 ^ mpDigitBit) { t with e := e &&& mpMask }
    pure t.res

/-! ### The multiple -/

variable {combineInplace} {M : Type*} [AddMonoid M] {enc : M → T}

theorem combineBit_eq (hadd : ∀ x y, combineInplace (enc x) (enc y) = .ok (enc (x + y))) (b : M)
    (a c e : ℕ) :
    combineBit combineInplace ⟨enc (a • b), enc (c • b), e⟩ =
      .ok (enc ((a + c * (e % 2)) • b)) := by
  rw [combineBit, Nat.and_one_is_mod]
  rcases Nat.mod_two_eq_zero_or_one e with h | h
  · rw [h, Nat.mul_zero]
    rfl
  · rw [h, if_pos Nat.one_ne_zero, hadd, Nat.mul_one, add_nsmul]

theorem customPowStep_eq (hadd : ∀ x y, combineInplace (enc x) (enc y) = .ok (enc (x + y))) (b : M)
    (a c e : ℕ) :
    customPowStep combineInplace ⟨enc (a • b), enc (c • b), e⟩ =
      .ok ⟨enc ((a + c * (e % 2)) • b), enc ((c * 2) • b), e / 2⟩ := by
  rw [customPowStep, combineBit_eq hadd, hadd, ← add_nsmul, ← Nat.mul_two]
  rfl

/-- The steps for a digit add the multiple by the digit, however many bits of it are set. -/
theorem customPowDigit_eq (hadd : ∀ x y, combineInplace (enc x) (enc y) = .ok (enc (x + y)))
    (b : M) {scalar : MpInt} (h : scalar.Shaped) {i : ℕ} (hi : i < scalar.used) (a c e : ℕ) :
    ∃ e', customPowDigit combineInplace scalar i ⟨enc (a • b), enc (c • b), e⟩ =
      .ok ⟨enc ((a + c * scalar.digit i) • b), enc ((c * 2 ^ mpDigitBit) • b), e'⟩ := by
  rw [customPowDigit, MpInt.vecGet_dp (hi.trans_le h.used_le), ok_bind]
  generalize hd : scalar.digit i = d
  have hlt : d < 2 ^ mpDigitBit := hd ▸ h.digit_lt i
  have hloop : forLoop mpDigitBit (fun _ => customPowStep combineInplace) _ = _ := forLoop_eq_ok
    (fun k => ⟨enc ((a + c * (d % 2 ^ k)) • b), enc ((c * 2 ^ k) • b), d / 2 ^ k⟩) fun k _ => by
      rw [customPowStep_eq hadd, Nat.div_div_eq_div_mul, Nat.mod_pow_succ, pow_succ, Nat.mul_add,
        Nat.mul_assoc c, Nat.mul_assoc c, Nat.add_assoc]
  rw [pow_zero, Nat.mod_one, Nat.mul_zero, Nat.add_zero, Nat.mul_one, Nat.div_one] at hloop
  rw [hloop, Nat.mod_eq_of_lt hlt]
  exact ⟨_, rfl⟩

/-- A step for the last digit keeps the sum of what was added and what is left, and `s` is up to
date as long as there is something left. -/
theorem customPowLastStep_ok (hadd : ∀ x y, combineInplace (enc x) (enc y) = .ok (enc (x + y)))
    (b : M) {a c : ℕ} {t : CustomPow T} (hres : t.res = enc (a • b)) (hs : t.s = enc (c • b)) :
    ∃ t' : CustomPow T, customPowLastStep combineInplace t = .ok t' ∧ t'.e = t.e / 2 ∧
      t'.res = enc ((a + c * (t.e % 2)) • b) ∧ (t'.e ≠ 0 → t'.s = enc ((c * 2) • b)) := by
  obtain ⟨res, s, e⟩ := t
  obtain rfl : res = _ := hres
  obtain rfl : s = _ := hs
  rw [customPowLastStep, combineBit_eq hadd, doubleUnlessLast]
  have hshift : e >>> 1 = e / 2 := rfl
  rw [hshift]
  by_cases hzero : e / 2 = 0
  · rw [hzero]
    exact ⟨_, rfl, rfl, rfl, fun hne => absurd rfl hne⟩
  · rw [if_pos hzero, hadd, ← add_nsmul, ← Nat.mul_two]
    exact ⟨_, rfl, rfl, rfl, fun _ => rfl⟩

/-- **Double and add** computes the multiple. -/
theorem slowCustomPow_eq (hadd : ∀ x y, combineInplace (enc x) (enc y) = .ok (enc (x + y)))
    (b : M) (scalar : MpInt) (h : scalar.Shaped) (hsign : scalar.isNeg = false) :
    slowCustomPow combineInplace (enc 0) (enc b) scalar = .ok (enc (scalar.mag • b)) := by
  rw [slowCustomPow, enforce_bind hsign]
  by_cases hzero : scalar.used = 0
  · rw [if_pos (by simpa [MpInt.isZero] using hzero), MpInt.mag, hzero, value_zero, zero_nsmul]
    rfl
  rw [if_neg (by simpa [MpInt.isZero] using hzero)]
  obtain ⟨n, hn⟩ := Nat.exists_eq_succ_of_ne_zero hzero
  rw [hn, Nat.succ_sub_one]
  -- before digit `i`, the digits below it have been added and `s` is the multiple by its weight
  obtain ⟨t, hloop, e, rfl⟩ := forLoop_ok (n := n) (f := customPowDigit combineInplace scalar)
    (fun i t => ∃ e, t = ⟨enc (value mpDigitBit i scalar.digit • b),
      enc (2 ^ (mpDigitBit * i) • b), e⟩)
    ⟨0, by rw [value_zero, zero_nsmul, Nat.mul_zero, pow_zero, one_nsmul]⟩
    fun i hi t ht => by
      obtain ⟨e, ht⟩ := ht
      obtain ⟨e', he'⟩ := customPowDigit_eq hadd b h (i := i) (by omega)
        (value mpDigitBit i scalar.digit) (2 ^ (mpDigitBit * i)) e
      refine ⟨_, ht ▸ he', e', ?_⟩
      rw [value_succ, Nat.mul_comm (scalar.digit i), Nat.mul_succ, pow_add]
  have hdigit := h.digit_lt n
  rw [hloop, ok_bind, MpInt.vecGet_dp (by have := h.used_le; omega), ok_bind]
  rw [mpMask, Nat.and_two_pow_sub_one_of_lt_two_pow hdigit]
  obtain ⟨t, hwhile, ⟨a, c, hres, hs, hsum⟩, hstop⟩ := whileLoop_ok Exception.nonTermination
    (fun t : CustomPow T => t.e ≠ 0) (customPowLastStep combineInplace)
    (s := ⟨enc (value mpDigitBit n scalar.digit • b), enc (2 ^ (mpDigitBit * n) • b),
      scalar.digit n⟩)
    (fun t => ∃ a c, t.res = enc (a • b) ∧ (t.e ≠ 0 → t.s = enc (c • b)) ∧
      a + c * t.e = scalar.mag)
    CustomPow.e hdigit.le
    ⟨_, _, rfl, fun _ => rfl, by rw [MpInt.mag, hn, value_succ, Nat.mul_comm]⟩
    fun t ht hne => by
      obtain ⟨a, c, hres, hs, hsum⟩ := ht
      obtain ⟨t', hstep, he, hres', hs'⟩ := customPowLastStep_ok hadd b hres (hs hne)
      refine ⟨t', hstep, ⟨_, _, hres', hs', ?_⟩, ?_⟩
      · rw [he, Nat.add_assoc, Nat.mul_assoc, ← Nat.mul_add, Nat.mod_add_div, hsum]
      · rw [he]
        exact Nat.div_lt_self (Nat.pos_of_ne_zero hne) Nat.one_lt_two
  rw [hwhile, ok_bind, hres]
  have hzero : t.e = 0 := not_not.1 hstop
  rw [hzero, Nat.mul_zero, Nat.add_zero] at hsum
  rw [hsum]
  rfl

end

end Yacl.Math
