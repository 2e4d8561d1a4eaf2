import Mathlib.Data.Nat.Size
import Yacl.Base.Exception
import Yacl.Lib.Radix

/-!
# The representation of large integers

The type `mp_int` of libtommath, on which `yacl/math/mpint` works directly: a sign, an array `dp` of
digits of `60` bits, and the number `used` of them that belong to the value. The array is longer
than that; libtommath keeps the digits from `used` on at zero, the digit before them different from
zero, and the sign of zero positive. These rules are `MpInt.Valid`, and a `ValidMpInt` is a number
that keeps them, which is what an `MPInt` holds between two calls. While a function runs, leading
digits may be zero; then only `MpInt.Shaped` holds, and `mp_clamp` makes the number valid again
(`valid_mpClamp`).

The functions `mp_grow`, `mp_zero` and `mp_clamp` are those of libtommath. No array has more than
`MP_MAX_DIGIT_COUNT` digits, and `mp_grow` refuses to make a longer one; otherwise it is taken to
get its memory. The number of bits of a number is computed with a table of bit patterns
(`yacl/math/mpint/tommath_ext_features.cc`); it is `Nat.size` of the magnitude
(`mpxCountBitsFast_eq`).
-/

open Radix

namespace Yacl.Math

/-- `MP_DIGIT_BIT`. -/
def mpDigitBit : ℕ := 60

/-- `MP_MASK`. -/
def mpMask : ℕ := 2 ^ mpDigitBit - 1

/-- `mp_sign`. -/
inductive MpSign where
  | zpos
  | neg
deriving DecidableEq, Repr

/-- The integer with a sign and a magnitude. -/
def MpSign.apply : MpSign → ℕ → ℤ
  | .zpos, n => n
  | .neg, n => -n

/-- `mp_int`. The length of `dp` is `alloc`. -/
structure MpInt where
  sign : MpSign
  used : ℕ
  dp : List ℕ
deriving DecidableEq, Repr

namespace MpInt

/-- Digit `i` of the array. -/
def digit (a : MpInt) (i : ℕ) : ℕ := a.dp.getD i 0

/-- The magnitude. -/
def mag (a : MpInt) : ℕ := value mpDigitBit a.used a.digit

/-- The integer. -/
def toInt (a : MpInt) : ℤ := a.sign.apply a.mag

/-- A number whose leading digits may be zero. -/
structure Shaped (a : MpInt) : Prop where
  used_le : a.used ≤ a.dp.length
  digit_lt : ∀ i, a.digit i < 2 ^ mpDigitBit
  digit_zero : ∀ i, a.used ≤ i → a.digit i = 0

/-- The rules that libtommath keeps. -/
structure Valid (a : MpInt) : Prop extends a.Shaped where
  top_ne_zero : 0 < a.used → a.digit (a.used - 1) ≠ 0
  sign_zero : a.used = 0 → a.sign = .zpos

theorem natAbs_toInt (a : MpInt) : a.toInt.natAbs = a.mag := by
  rw [toInt]
  cases a.sign <;> simp [MpSign.apply]

theorem vecGet_dp {a : MpInt} {i : ℕ} (h : i < a.dp.length) : vecGet a.dp i = .ok (a.digit i) :=
  vecGet_getD h 0

theorem value_digit_of_le {a : MpInt} (h : a.Shaped) {n : ℕ} (hn : a.used ≤ n) :
    value mpDigitBit n a.digit = a.mag :=
  value_eq_of_zero hn fun i hi _ => h.digit_zero i hi

theorem Valid.eq_zero {a : MpInt} (h : a.Valid) (hzero : a.toInt = 0) :
    a.used = 0 ∧ a.sign = .zpos := by
  have hmag : a.mag = 0 := by rw [← natAbs_toInt, hzero]; rfl
  have hused : a.used = 0 := by
    by_contra hne
    obtain ⟨n, hn⟩ := Nat.exists_eq_succ_of_ne_zero hne
    have htop := h.top_ne_zero (by omega)
    rw [mag, hn, value_succ, Nat.add_eq_zero_iff, Nat.mul_eq_zero] at hmag
    rw [hn] at htop
    rcases hmag.2 with hdigit | hpow
    · exact htop hdigit
    · exact absurd hpow (Nat.two_pow_pos _).ne'
  exact ⟨hused, h.sign_zero hused⟩

end MpInt

/-- What an `MPInt` holds. -/
abbrev ValidMpInt : Type := { a : MpInt // a.Valid }

/-! ### `mp_grow` -/

/-- `MP_MAX_DIGIT_COUNT`, which is `(INT_MAX - 2) / MP_DIGIT_BIT`. -/
def mpMaxDigitCount : ℕ := (2 ^ 31 - 1 - 2) / mpDigitBit

/-- The conversion of a `size_t` to an `int`. -/
def toCInt (n : ℕ) : ℤ := (BitVec.ofNat 32 n).toInt

/-- The values of `mp_err` that `mp_grow` returns when it fails. -/
inductive MpErr where
  /-- `MP_VAL`. -/
  | val
  /-- `MP_OVF`. -/
  | ovf
deriving DecidableEq, Repr

/-- The number of an error. -/
def MpErr.code : MpErr → ℤ
  | val => -3
  | ovf => -6

/-- `MPINT_ENFORCE_OK(call)`. -/
def MpErr.enforceOk {α : Type} (call : String) : Except MpErr α → Except Exception α
  | .ok a => pure a
  | .error e => throw (.enforceNotMet s!"({call}) == MP_OKAY" s!"{e.code} vs 0")

/-- `mp_grow`: the new digits are zero. -/
def mpGrow (a : MpInt) (size : ℤ) : Except MpErr MpInt :=
  if size < 0 then throw .val
  else if a.dp.length < size then
    if size > mpMaxDigitCount then throw .ovf
    else pure { a with dp := a.dp ++ List.replicate (size.toNat - a.dp.length) 0 }
  else pure a

theorem toCInt_of_lt {n : ℕ} (h : n < 2 ^ 31) : toCInt n = n := by
  rw [toCInt, BitVec.toInt_ofNat', Int.bmod_eq_of_le] <;> omega

/-- **Growing within the limit** changes no digit. -/
theorem mpGrow_ok {a : MpInt} (h : a.Shaped) {size : ℕ} (hsize : size ≤ mpMaxDigitCount) :
    ∃ b, mpGrow a size = .ok b ∧ b.Shaped ∧ b.dp.length = max a.dp.length size ∧
      ∀ i, b.digit i = a.digit i := by
  rw [mpGrow, if_neg (by omega)]
  split
  · next hlt =>
    rw [if_neg (by omega), Int.toNat_natCast]
    have hdigit : ∀ i, (MpInt.mk a.sign a.used
        (a.dp ++ List.replicate (size - a.dp.length) 0)).digit i = a.digit i := by
      intro i
      rw [MpInt.digit, MpInt.digit, List.getD_eq_getElem?_getD, List.getD_eq_getElem?_getD]
      by_cases hi : i < a.dp.length
      · rw [List.getElem?_append_left hi]
      · rw [List.getElem?_append_right (by omega), List.getElem?_eq_none (l := a.dp) (by omega),
          List.getElem?_replicate]
        split <;> rfl
    have hlength : (a.dp ++ List.replicate (size - a.dp.length) 0).length =
        max a.dp.length size := by
      rw [List.length_append, List.length_replicate]
      omega
    refine ⟨_, rfl, ⟨?_, fun i => ?_, fun i hi => ?_⟩, hlength, hdigit⟩
    · dsimp only
      rw [hlength]
      exact h.used_le.trans (Nat.le_max_left _ _)
    · rw [hdigit]
      exact h.digit_lt i
    · rw [hdigit]
      exact h.digit_zero i hi
  · exact ⟨a, rfl, h, by omega, fun _ => rfl⟩

/-- **Growing beyond the limit** fails. -/
theorem mpGrow_ovf {a : MpInt} (h : a.dp.length ≤ mpMaxDigitCount) {size : ℕ}
    (hsize : mpMaxDigitCount < size) : mpGrow a size = .error .ovf := by
  rw [mpGrow, if_neg (by omega), if_pos (by omega), if_pos (by omega)]
  rfl

/-! ### `mp_zero` -/

/-- `mp_zero`: the digits in use are cleared. -/
def mpZero (a : MpInt) : MpInt :=
  { sign := .zpos, used := 0, dp := List.replicate a.used 0 ++ a.dp.drop a.used }

theorem shaped_mpZero {a : MpInt} (h : a.Shaped) : (mpZero a).Shaped := by
  have hzero : ∀ i, (mpZero a).digit i = 0 := by
    intro i
    rw [mpZero, MpInt.digit, List.getD_eq_getElem?_getD]
    by_cases hi : i < a.used
    · rw [List.getElem?_append_left (by simpa using hi), List.getElem?_replicate_of_lt hi]
      rfl
    · rw [List.getElem?_append_right (by simpa using hi), List.getElem?_drop, List.length_replicate,
        show a.used + (i - a.used) = i by omega, ← List.getD_eq_getElem?_getD]
      exact h.digit_zero i (by omega)
  refine ⟨Nat.zero_le _, fun i => ?_, fun i _ => hzero i⟩
  rw [hzero]
  exact Nat.two_pow_pos _

/-! ### `mp_clamp` -/

/-- The number of digits without the leading ones that are zero. -/
def clampUsed (d : ℕ → ℕ) : ℕ → ℕ
  | 0 => 0
  | n + 1 => if d n = 0 then clampUsed d n else n + 1

/-- `mp_clamp`. -/
def mpClamp (a : MpInt) : MpInt :=
  let used := clampUsed a.digit a.used
  { a with used := used, sign := if used = 0 then .zpos else a.sign }

theorem clampUsed_spec (d : ℕ → ℕ) (n : ℕ) :
    clampUsed d n ≤ n ∧ (∀ i, clampUsed d n ≤ i → i < n → d i = 0) ∧
      (0 < clampUsed d n → d (clampUsed d n - 1) ≠ 0) := by
  induction n with
  | zero =>
    exact ⟨Nat.le_refl 0, fun i _ hi => absurd hi (by omega), fun h => absurd h (Nat.lt_irrefl 0)⟩
  | succ n ih =>
    obtain ⟨hle, hzero, htop⟩ := ih
    rw [clampUsed]
    split
    · next hn =>
      refine ⟨by omega, fun i hi hin => ?_, htop⟩
      rcases Nat.lt_succ_iff_lt_or_eq.mp hin with hlt | rfl
      · exact hzero i hi hlt
      · exact hn
    · next hn => exact ⟨Nat.le_refl _, fun i hi hin => absurd hin (by omega), fun _ => hn⟩

theorem toInt_mpClamp (a : MpInt) : (mpClamp a).toInt = a.toInt := by
  obtain ⟨hle, hzero, -⟩ := clampUsed_spec a.digit a.used
  have hmag : (mpClamp a).mag = a.mag := (value_eq_of_zero hle hzero).symm
  by_cases hused : clampUsed a.digit a.used = 0
  · have hnil : a.mag = 0 := by
      rw [← hmag, MpInt.mag, mpClamp]
      simp [hused]
    rw [MpInt.toInt, MpInt.toInt, hmag, hnil]
    cases (mpClamp a).sign <;> cases a.sign <;> rfl
  · have hsign : (mpClamp a).sign = a.sign := if_neg hused
    rw [MpInt.toInt, MpInt.toInt, hmag, hsign]

/-- **Clamping makes a number valid.** -/
theorem valid_mpClamp {a : MpInt} (h : a.Shaped) : (mpClamp a).Valid := by
  obtain ⟨hle, hzero, htop⟩ := clampUsed_spec a.digit a.used
  refine { used_le := hle.trans h.used_le, digit_lt := h.digit_lt, digit_zero := fun i hi => ?_,
           top_ne_zero := htop, sign_zero := fun hused => if_pos hused }
  by_cases hi' : i < a.used
  · exact hzero i hi hi'
  · exact h.digit_zero i (by omega)

/-- The representation of an integer. -/
def MpInt.ofInt (z : ℤ) : MpInt :=
  mpClamp {
    sign := if z < 0 then .neg else .zpos
    used := z.natAbs.size / mpDigitBit + 1
    dp := (List.range (z.natAbs.size / mpDigitBit + 1)).map fun i =>
      z.natAbs / 2 ^ (mpDigitBit * i) % 2 ^ mpDigitBit }

theorem MpInt.digit_mk_range (s : MpSign) (n m : ℕ) (f : ℕ → ℕ) (i : ℕ) :
    (MpInt.mk s n ((List.range m).map f)).digit i = if i < m then f i else 0 := by
  rw [MpInt.digit, List.getD_eq_getElem?_getD, List.getElem?_map]
  split
  · next hi => rw [List.getElem?_range hi]; rfl
  · next hi => rw [List.getElem?_eq_none (by simpa using hi)]; rfl

theorem MpInt.valid_ofInt (z : ℤ) : (MpInt.ofInt z).Valid := by
  refine valid_mpClamp ⟨by simp, fun i => ?_, fun i hi => ?_⟩
  · rw [digit_mk_range]
    split
    · exact Nat.mod_lt _ (Nat.two_pow_pos _)
    · exact Nat.two_pow_pos _
  · rw [digit_mk_range, if_neg (by simpa using hi)]

/-! ### The number of bits -/

/-- `bitPatternToLog2`. -/
def bitPatternToLog2 : List ℤ :=
  [0,  48, -1, -1, 31, -1, 15, 51, -1, 63, 5,  -1, -1, -1, 19, -1,
   23, 28, -1, -1, -1, 40, 36, 46, -1, 13, -1, -1, -1, 34, -1, 58,
   -1, 60, 2,  43, 55, -1, -1, -1, 50, 62, 4,  -1, 18, 27, -1, 39,
   45, -1, -1, 33, 57, -1, 1,  54, -1, 49, -1, 17, -1, -1, 32, -1,
   53, -1, 16, -1, -1, 52, -1, -1, -1, 64, 6,  7,  8,  -1, 9,  -1,
   -1, -1, 20, 10, -1, -1, 24, -1, 29, -1, -1, 21, -1, 11, -1, -1,
   41, -1, 25, 37, -1, 47, -1, 30, 14, -1, -1, -1, -1, 22, -1, -1,
   35, 12, -1, -1, -1, 59, 42, -1, -1, 61, 3,  26, 38, 44, -1, 56]

/-- The lookup at the end of `count_bits_debruijn`. -/
def bitPatternLookup (v : ℕ) : ℤ :=
  bitPatternToLog2.getD ((v * 0x6c04f118e9966f6b % 2 ^ 64) >>> 57) 0

/-- `count_bits_debruijn`. -/
def countBitsDebruijn (v : ℕ) : ℤ :=
  let v := v ||| v >>> 1
  let v := v ||| v >>> 2
  let v := v ||| v >>> 4
  let v := v ||| v >>> 8
  let v := v ||| v >>> 16
  let v := v ||| v >>> 32
  bitPatternLookup v

/-- `mpx_count_bits_fast`. -/
def mpxCountBitsFast (a : MpInt) : ℤ :=
  if a.used = 0 then 0
  else (a.used - 1 : ℕ) * mpDigitBit + countBitsDebruijn (a.digit (a.used - 1))

/-- A word each of whose bits says whether one of `k` bits of `v`, from that one on, is set. -/
def Smeared (v k u : ℕ) : Prop := ∀ i, u.testBit i = true ↔ ∃ j < k, v.testBit (i + j) = true

theorem smeared_one (v : ℕ) : Smeared v 1 v := fun i => by simp

theorem Smeared.double {v k u : ℕ} (h : Smeared v k u) : Smeared v (k + k) (u ||| u >>> k) := by
  intro i
  rw [Nat.testBit_or, Nat.testBit_shiftRight, Bool.or_eq_true, h i, h (k + i)]
  constructor
  · rintro (⟨j, hj, hbit⟩ | ⟨j, hj, hbit⟩)
    · exact ⟨j, by omega, hbit⟩
    · exact ⟨k + j, by omega, by rwa [show i + (k + j) = k + i + j by omega]⟩
  · rintro ⟨j, hj, hbit⟩
    by_cases hjk : j < k
    · exact Or.inl ⟨j, hjk, hbit⟩
    · exact Or.inr ⟨j - k, by omega, by rwa [show k + i + (j - k) = i + j by omega]⟩

theorem Smeared.eq_two_pow_sub_one {v k u : ℕ} (h : Smeared v k u) (hv : v < 2 ^ k) :
    u = 2 ^ v.size - 1 := by
  refine Nat.eq_of_testBit_eq fun i => ?_
  rw [Bool.eq_iff_iff, h i, Nat.testBit_two_pow_sub_one, decide_eq_true_iff]
  constructor
  · rintro ⟨j, -, hbit⟩
    by_contra hi
    have hlt : v < 2 ^ (i + j) := Nat.size_le.mp (by omega)
    rw [Nat.testBit_lt_two_pow hlt] at hbit
    contradiction
  · intro hi
    -- the most significant bit is within the reach of every lower one
    have hpos : 0 < v := Nat.pos_of_ne_zero fun hzero => by simp [hzero] at hi
    have hsize : v.size = v.log2 + 1 := by
      refine le_antisymm (Nat.size_le.mpr Nat.lt_log2_self) (Nat.lt_size.mpr ?_)
      exact Nat.log2_self_le hpos.ne'
    have hle : v.size ≤ k := Nat.size_le.mpr hv
    exact ⟨v.log2 - i, by omega, by
      rw [show i + (v.log2 - i) = v.log2 by omega]; exact Nat.testBit_log2 hpos.ne'⟩

/-- **The table** has the number of ones at the pattern of each word of ones. -/
theorem bitPatternLookup_two_pow_sub_one :
    ∀ n : ℕ, n < 65 → bitPatternLookup (2 ^ n - 1) = n := by
  decide +kernel

theorem countBitsDebruijn_eq {v : ℕ} (hv : v < 2 ^ 64) : countBitsDebruijn v = v.size := by
  have h := (((((smeared_one v).double).double).double).double).double.double
  have hsize : v.size < 65 := Nat.lt_succ_of_le (Nat.size_le.mpr hv)
  rw [countBitsDebruijn, h.eq_two_pow_sub_one hv, bitPatternLookup_two_pow_sub_one _ hsize]

theorem size_add_mul {L t n : ℕ} (hL : L < 2 ^ n) (ht : t ≠ 0) :
    (L + t * 2 ^ n).size = n + t.size := by
  refine le_antisymm (Nat.size_le.mpr ?_) ?_
  · have htop : (t + 1) * 2 ^ n ≤ 2 ^ t.size * 2 ^ n :=
      Nat.mul_le_mul_right _ (Nat.lt_size_self t)
    rw [Nat.add_mul] at htop
    rw [Nat.add_comm n, pow_add]
    omega
  · obtain ⟨s, hs⟩ := Nat.exists_eq_succ_of_ne_zero (Nat.size_pos.mpr (Nat.pos_of_ne_zero ht)).ne'
    have hlow : 2 ^ s ≤ t := Nat.lt_size.mp (by omega)
    have hmul := Nat.mul_le_mul_right (2 ^ n) hlow
    rw [hs, Nat.add_succ, Nat.succ_le_iff, Nat.lt_size, Nat.add_comm n, pow_add]
    omega

/-- **The number of bits** of a valid number. -/
theorem mpxCountBitsFast_eq {a : MpInt} (h : a.Valid) : mpxCountBitsFast a = a.mag.size := by
  rw [mpxCountBitsFast, MpInt.mag]
  cases hn : a.used with
  | zero => simp
  | succ n =>
    have htop := h.top_ne_zero (by omega)
    rw [hn, Nat.add_sub_cancel] at htop
    have hlt : a.digit n < 2 ^ 64 := (h.digit_lt n).trans (by decide)
    rw [Nat.add_sub_cancel, countBitsDebruijn_eq hlt, value_succ,
      size_add_mul (value_lt fun i _ => h.digit_lt i) htop]
    push_cast
    ring

/-- **The bit counters.** The entries of the table that stand for no pattern are never read. -/
theorem count_bits_correct :
    (∀ v < 2 ^ 64, countBitsDebruijn v = v.size ∧ countBitsDebruijn v ≠ -1) ∧
      ∀ a : MpInt, a.Valid → mpxCountBitsFast a = a.mag.size := by
  refine ⟨fun v hv => ?_, fun a => mpxCountBitsFast_eq⟩
  rw [countBitsDebruijn_eq hv]
  exact ⟨rfl, by omega⟩

end Yacl.Math
