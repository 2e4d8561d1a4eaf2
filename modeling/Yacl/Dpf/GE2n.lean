import Mathlib.Tactic
import Yacl.Base.Exception
import Yacl.Base.Int128

/-!
# Group elements of `Z_{2^N}`

The model of `yacl/crypto/experimental/dpf/ge2n.h`. A `GE2n N` stores a full `uint128_t`;
only its `N` low bits (`GetVal`) are the group element, and the operators work on the
stored words without masking. `GE2n.toZMod` is the element that a word stands for: for
`N ≤ 128` the operators are the group operations there (`toZMod_add`, `toZMod_getReverse`),
and two words have the same `GetVal` exactly when they stand for the same element
(`getVal_eq_iff`). All the arithmetic of the function secret sharing schemes is done in
`ZMod (2 ^ N)` through these lemmas.
-/

namespace Yacl.Crypto

/-- `GE2n<N>`, an element of `Z_{2^N}`, with its store `store_`. -/
@[ext]
structure GE2n (N : ℕ) where
  store : Uint128
deriving DecidableEq

namespace GE2n

variable {N : ℕ}

/-- `kMask_`, the mask of the `N` low bits. -/
def kMask (N : ℕ) : Uint128 := if N = 128 then BitVec.allOnes 128 else (1#128 <<< N) - 1

/-- `GetVal`, the `N`-bit truncated value. -/
def getVal (a : GE2n N) : Uint128 := a.store &&& kMask N

/-- `GetBit`, the `i`-th least significant bit of the store. -/
def getBit (a : GE2n N) (i : ℕ) : Except Exception Bool := do
  enforce (i < 128) "i < sizeof(StoreTy) * 8" "GetBit: index out of range"
  pure (a.store.getLsbD i)

/-- `GetReverse`, the negated group element. -/
def getReverse (a : GE2n N) : GE2n N := ⟨kMask N - a.getVal + 1⟩

instance : Add (GE2n N) := ⟨fun a b => ⟨a.store + b.store⟩⟩

instance : Sub (GE2n N) := ⟨fun a b => ⟨a.store - b.store⟩⟩

@[simp]
theorem store_add (a b : GE2n N) : (a + b).store = a.store + b.store := rfl

@[simp]
theorem store_sub (a b : GE2n N) : (a - b).store = a.store - b.store := rfl

@[simp]
theorem getBit_of_lt (a : GE2n N) {i : ℕ} (h : i < 128) :
    a.getBit i = .ok (a.store.getLsbD i) := by
  rw [getBit, enforce_of_pos h]
  rfl

/-! ### The group element behind a store -/

/-- The element of `Z_{2^N}` that a word stands for. -/
def toZMod (a : GE2n N) : ZMod (2 ^ N) := a.store.toNat

@[simp]
theorem toZMod_zero : (⟨0#128⟩ : GE2n N).toZMod = 0 := by simp [toZMod]

theorem toNat_kMask (h : N ≤ 128) : (kMask N).toNat = 2 ^ N - 1 := by
  rw [kMask]
  split
  · next hN => rw [hN]; rfl
  · next hN =>
    have hlt : 2 ^ N < 2 ^ 128 := Nat.pow_lt_pow_right (by omega) (by omega)
    have hpos : 0 < 2 ^ N := Nat.two_pow_pos N
    have hone : (1#128 <<< N).toNat = 2 ^ N := by
      rw [BitVec.toNat_shiftLeft, Nat.shiftLeft_eq, BitVec.toNat_ofNat, Nat.one_mul,
        Nat.mod_eq_of_lt hlt]
    rw [BitVec.toNat_sub_of_le (by rw [BitVec.le_def, hone]; exact hpos), hone]
    rfl

theorem toNat_getVal (h : N ≤ 128) (a : GE2n N) : a.getVal.toNat = a.store.toNat % 2 ^ N := by
  rw [getVal, BitVec.toNat_and, toNat_kMask h, Nat.and_two_pow_sub_one_eq_mod]

/-- Two words have the same `GetVal` exactly when they stand for the same element. -/
theorem getVal_eq_iff (h : N ≤ 128) (a b : GE2n N) :
    a.getVal = b.getVal ↔ a.toZMod = b.toZMod := by
  rw [toZMod, toZMod, ZMod.natCast_eq_natCast_iff', ← toNat_getVal h, ← toNat_getVal h,
    BitVec.toNat_inj]

theorem getVal_eq_zero_iff (h : N ≤ 128) (a : GE2n N) : a.getVal = 0 ↔ a.toZMod = 0 := by
  have hz : (⟨0⟩ : GE2n N).getVal = 0 := BitVec.zero_and
  rw [← hz, getVal_eq_iff h]
  exact Iff.of_eq (congrArg _ toZMod_zero)

theorem cast_mod_two_pow (h : N ≤ 128) (x : ℕ) :
    ((x % 2 ^ 128 : ℕ) : ZMod (2 ^ N)) = x := by
  rw [ZMod.natCast_eq_natCast_iff', Nat.mod_mod_of_dvd _ (pow_dvd_pow 2 h)]

theorem toZMod_add (h : N ≤ 128) (a b : GE2n N) : (a + b).toZMod = a.toZMod + b.toZMod := by
  rw [toZMod, store_add, BitVec.toNat_add, cast_mod_two_pow h, Nat.cast_add]
  rfl

theorem toZMod_sub (h : N ≤ 128) (a b : GE2n N) : (a - b).toZMod = a.toZMod - b.toZMod := by
  have hadd : (a - b + b).toZMod = a.toZMod := by
    rw [toZMod, store_add, store_sub, BitVec.sub_add_cancel, toZMod]
  rw [← hadd, toZMod_add h]
  ring

theorem toZMod_mk_getVal (h : N ≤ 128) (a : GE2n N) : (⟨a.getVal⟩ : GE2n N).toZMod = a.toZMod := by
  rw [toZMod, toNat_getVal h, ZMod.natCast_mod, toZMod]

theorem toZMod_getReverse (h : N ≤ 128) (a : GE2n N) : a.getReverse.toZMod = -a.toZMod := by
  -- the mask stands for `-1`
  have hmask : (⟨kMask N⟩ : GE2n N).toZMod = -1 := by
    rw [toZMod, toNat_kMask h, Nat.cast_sub (Nat.one_le_two_pow)]
    simp
  have hone : (⟨1⟩ : GE2n N).toZMod = 1 := by simp [toZMod]
  have hrev : a.getReverse = ⟨kMask N⟩ - ⟨a.getVal⟩ + ⟨1⟩ := rfl
  rw [hrev, toZMod_add h, toZMod_sub h, hmask, hone, toZMod_mk_getVal h]
  ring

theorem testBit_getVal (h : N ≤ 128) (a : GE2n N) (i : ℕ) :
    a.getVal.toNat.testBit i = (decide (i < N) && a.store.getLsbD i) := by
  rw [toNat_getVal h, Nat.testBit_mod_two_pow, BitVec.getLsbD]

theorem getVal_eq_iff_getLsbD (h : N ≤ 128) (a b : GE2n N) :
    a.getVal = b.getVal ↔ ∀ i < N, a.store.getLsbD i = b.store.getLsbD i := by
  rw [← BitVec.toNat_inj]
  constructor
  · intro heq i hi
    have hbit := congrArg (Nat.testBit · i) heq
    simpa [testBit_getVal h, hi] using hbit
  · intro hall
    refine Nat.eq_of_testBit_eq fun i => ?_
    rw [testBit_getVal h, testBit_getVal h]
    by_cases hi : i < N
    · rw [hall i hi]
    · simp [hi]

end GE2n

end Yacl.Crypto
