import Mathlib.Algebra.Ring.Nat

/-!
# Machine integers

The model of `yacl/base/int128.h`, and shifts of `uint32_t`.
-/

namespace Yacl

/-- `uint128_t`. -/
abbrev Uint128 := BitVec 128

/-- `MakeUint128`. -/
def makeUint128 (hi lo : BitVec 64) : Uint128 := hi ++ lo

theorem getLsbD_makeUint128 (hi lo : BitVec 64) (i : ℕ) :
    (makeUint128 hi lo).getLsbD i = if i < 64 then lo.getLsbD i else hi.getLsbD (i - 64) :=
  BitVec.getLsbD_append

/-- `x << n` on `uint32_t`. A count of `32` or more is **undefined** in the source. It is no failure
here, unlike other undefined operations: the shift instructions of the supported machines reduce the
count modulo `32`, and so does the model. The theorems that meet such a count say so. -/
def shl32 (x : BitVec 32) (n : ℕ) : BitVec 32 := x <<< (n % 32)

theorem toNat_shl32_of_lt {i n : ℕ} (hn : n < 32) (h : i * 2 ^ n < 2 ^ 32) :
    (shl32 (BitVec.ofNat 32 i) n).toNat = i * 2 ^ n := by
  have hi : i < 2 ^ 32 := lt_of_le_of_lt (Nat.le_mul_of_pos_right i (Nat.two_pow_pos n)) h
  rw [shl32, Nat.mod_eq_of_lt hn, BitVec.toNat_shiftLeft, BitVec.toNat_ofNat,
    Nat.mod_eq_of_lt hi, Nat.shiftLeft_eq, Nat.mod_eq_of_lt h]

theorem toNat_shl32_one {n : ℕ} (hn : n < 32) : (shl32 1 n).toNat = 2 ^ n := by
  have hpow : 2 ^ n < 2 ^ 32 := Nat.pow_lt_pow_right (by decide) hn
  rw [← Nat.one_mul (2 ^ n)] at hpow ⊢
  exact toNat_shl32_of_lt hn hpow

end Yacl
