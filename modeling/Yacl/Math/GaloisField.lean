import Yacl.Base.Int128
import Yacl.Lib.BinaryField
import Yacl.Math.Gadget

/-!
# Galois fields

The model of `yacl/math/galois_field/gf_intrinsic.cc`: products are carry-less products, by the
instruction `_mm_clmulepi64_si128`, which are reduced modulo `x^64 + x^4 + x^3 + x + 1` in
`GF(2^64)` and modulo `x^128 + x^7 + x^2 + x + 1` in `GF(2^128)`. The inner product of two spans
adds up the unreduced products.

The functions are additive; `gf64Dot_xor` says so for the inner product. **The elements of words**
in the binary fields are multiplied by them (`elem_gf64Mul`, `elem_gf128Mul`), and an inner product
is the sum of the products of the elements (`elem_gf64Dot`, `elem_gf128Dot`). A word is determined
by its element, so the products are the remainders of the products of polynomials, and reducing the
sum of the products is the same as adding up the reduced ones (`gfMul_eq_modByMonic`).
-/

open Loop XorSum BinaryField

namespace Yacl.Math

/-- The low `64` bits of a block. -/
def low64 (x : Uint128) : BitVec 64 := x.extractLsb' 0 64

/-- The high `64` bits of a block. -/
def high64 (x : Uint128) : BitVec 64 := x.extractLsb' 64 64

/-- `_mm_clmulepi64_si128`: bit `0` of the control byte selects the half of `x`, and bit `4` that
of `y`. -/
def mmClmulepi64Si128 (x y : Uint128) (imm : BitVec 8) : Uint128 :=
  clmul 128 (if imm.getLsbD 0 then high64 x else low64 x)
    (if imm.getLsbD 4 then high64 y else low64 y)

theorem low64_xor (x y : Uint128) : low64 (x ^^^ y) = low64 x ^^^ low64 y :=
  BitVec.extractLsb'_xor

theorem high64_xor (x y : Uint128) : high64 (x ^^^ y) = high64 x ^^^ high64 y :=
  BitVec.extractLsb'_xor

theorem mmClmulepi64Si128_xor_right (x y z : Uint128) (imm : BitVec 8) :
    mmClmulepi64Si128 x (y ^^^ z) imm =
      mmClmulepi64Si128 x y imm ^^^ mmClmulepi64Si128 x z imm := by
  rw [mmClmulepi64Si128, low64_xor, high64_xor, ← apply_ite₂, clmul_xor_right]
  rfl

/-- Word `j` at `reinterpret_cast<uint64_t*>` of an array of blocks. -/
def word64 (a : ℕ → Uint128) (j : ℕ) : BitVec 64 :=
  if j % 2 = 0 then low64 (a (j / 2)) else high64 (a (j / 2))

/-- The span of the first `n` words. -/
def words64 (a : ℕ → Uint128) (n : ℕ) : List (BitVec 64) := (List.range n).map (word64 a)

theorem word64_xor (a b : ℕ → Uint128) (j : ℕ) :
    word64 (fun i => a i ^^^ b i) j = word64 a j ^^^ word64 b j := by
  unfold word64
  split
  · exact low64_xor _ _
  · exact high64_xor _ _

theorem word64_congr {a b : ℕ → Uint128} {n j : ℕ} (h : ∀ i < n, a i = b i) (hj : j < n * 2) :
    word64 a j = word64 b j := by
  rw [word64, word64, h (j / 2) (by omega)]

/-! ### `GF(2^64)` -/

/-- `kGfMod64`. -/
def kGfMod64 : BitVec 64 := (1 <<< 4) ||| (1 <<< 3) ||| (1 <<< 1) ||| 1

/-- `Gf64ClMul` of two words. -/
def gf64ClMul (x y : BitVec 64) : Uint128 :=
  mmClmulepi64Si128 (x.setWidth 128) (y.setWidth 128) 0x00

/-- The body of the first loop of `Gf64ClMul` for spans: two products. -/
def gf64ClMulPair (x y : List (BitVec 64)) (i : ℕ) (ret : Uint128) : Except Exception Uint128 := do
  let xb := makeUint128 (← vecGet x (i + 1)) (← vecGet x i)
  let yb := makeUint128 (← vecGet y (i + 1)) (← vecGet y i)
  let xy0 := mmClmulepi64Si128 xb yb 0x00
  let xy1 := mmClmulepi64Si128 xb yb 0x11
  pure (ret ^^^ xy0 ^^^ xy1)

/-- The body of the second loop of `Gf64ClMul` for spans: one product. -/
def gf64ClMulOne (x y : List (BitVec 64)) (i : ℕ) (ret : Uint128) : Except Exception Uint128 := do
  let temp := gf64ClMul (← vecGet x i) (← vecGet y i)
  pure (ret ^^^ temp)

/-- `Gf64ClMul` for spans: the first loop stops at the last pair, at `2 * (size / 2)`. -/
def gf64ClMulSpan (x y : List (BitVec 64)) : Except Exception Uint128 := do
  enforce (x.length = y.length) "x.size() == y.size()" ""
  let size := x.length
  let ret ← forLoop (size / 2) (fun t ret => gf64ClMulPair x y (2 * t) ret) 0
  let i := 2 * (size / 2)
  forLoop (size - i) (fun t ret => gf64ClMulOne x y (i + t) ret) ret

/-- `Gf64Reduce`. -/
def gf64Reduce (x : Uint128) : BitVec 64 :=
  let modulo := makeUint128 0 kGfMod64
  let xb := x
  let temp := mmClmulepi64Si128 modulo xb 0x10
  let xb := xb ^^^ temp
  let temp := mmClmulepi64Si128 modulo temp 0x10
  let xb := xb ^^^ temp
  low64 xb

/-- `Gf64Mul` for spans. -/
def gf64MulSpan (x y : List (BitVec 64)) : Except Exception (BitVec 64) := do
  enforce (x.length = y.length) "x.size() == y.size()" ""
  let temp ← gf64ClMulSpan x y
  pure (gf64Reduce temp)

/-- The inner product of two sequences in `GF(2^64)`. -/
def gf64Dot (n : ℕ) (x y : ℕ → BitVec 64) : BitVec 64 :=
  gf64Reduce (xorSum n fun i => clmul 128 (x i) (y i))

theorem gf64Reduce_xor (x y : Uint128) :
    gf64Reduce (x ^^^ y) = gf64Reduce x ^^^ gf64Reduce y := by
  simp only [gf64Reduce, mmClmulepi64Si128_xor_right, low64_xor]
  ac_rfl

/-- **The inner product is additive.** -/
theorem gf64Dot_xor (n : ℕ) (x y z : ℕ → BitVec 64) :
    gf64Dot n x (fun i => y i ^^^ z i) = gf64Dot n x y ^^^ gf64Dot n x z := by
  simp only [gf64Dot, clmul_xor_right, xorSum_xor, gf64Reduce_xor]

theorem gf64Dot_congr {n : ℕ} {x y z : ℕ → BitVec 64} (h : ∀ i < n, y i = z i) :
    gf64Dot n x y = gf64Dot n x z := by
  rw [gf64Dot, gf64Dot, xorSum_congr fun i hi => by rw [h i hi]]

theorem low64_makeUint128 (hi lo : BitVec 64) : low64 (makeUint128 hi lo) = lo := by
  refine BitVec.eq_of_getLsbD_eq fun i h => ?_
  rw [low64, BitVec.getLsbD_extractLsb', getLsbD_makeUint128]
  simp [h]

theorem high64_makeUint128 (hi lo : BitVec 64) : high64 (makeUint128 hi lo) = hi := by
  refine BitVec.eq_of_getLsbD_eq fun i h => ?_
  rw [high64, BitVec.getLsbD_extractLsb', getLsbD_makeUint128]
  simp [h]

theorem gf64ClMul_eq (x y : BitVec 64) : gf64ClMul x y = clmul 128 x y := by
  have hlow : ∀ z : BitVec 64, low64 (z.setWidth 128) = z := by
    intro z
    refine BitVec.eq_of_getLsbD_eq fun i hi => ?_
    simp [low64, hi, show i < 128 by omega]
  rw [gf64ClMul, mmClmulepi64Si128, if_neg (by decide), if_neg (by decide), hlow, hlow]

section Spans

variable {n : ℕ} {x y : ℕ → BitVec 64}

theorem vecGet_map_range {α : Type} {i : ℕ} (h : i < n) (x : ℕ → α) :
    vecGet ((List.range n).map x) i = .ok (x i) :=
  vecGet_of_getElem? (by simp [h])

theorem gf64ClMulPair_eq {t : ℕ} (ht : t < n / 2) :
    gf64ClMulPair ((List.range n).map x) ((List.range n).map y) (2 * t)
        (xorSum (2 * t) fun i => clmul 128 (x i) (y i)) =
      .ok (xorSum (2 * (t + 1)) fun i => clmul 128 (x i) (y i)) := by
  rw [gf64ClMulPair, vecGet_map_range (by omega), vecGet_map_range (by omega),
    vecGet_map_range (by omega), vecGet_map_range (by omega), Nat.mul_succ]
  simp only [ok_bind, mmClmulepi64Si128]
  rw [if_neg (by decide), if_neg (by decide), low64_makeUint128, low64_makeUint128,
    high64_makeUint128, high64_makeUint128]
  rfl

theorem gf64ClMulOne_eq {i : ℕ} (hi : i < n) :
    gf64ClMulOne ((List.range n).map x) ((List.range n).map y) i
        (xorSum i fun i => clmul 128 (x i) (y i)) =
      .ok (xorSum (i + 1) fun i => clmul 128 (x i) (y i)) := by
  rw [gf64ClMulOne, vecGet_map_range hi, vecGet_map_range hi, ok_bind, ok_bind, gf64ClMul_eq]
  rfl

/-- **`Gf64ClMul` for spans** adds up all products, whether their number is even or odd. -/
theorem gf64ClMulSpan_eq :
    gf64ClMulSpan ((List.range n).map x) ((List.range n).map y) =
      .ok (xorSum n fun i => clmul 128 (x i) (y i)) := by
  have hpairs := forLoop_eq_ok (fun t => xorSum (2 * t) fun i => clmul 128 (x i) (y i))
    fun t (ht : t < n / 2) => gf64ClMulPair_eq ht
  have hrest := forLoop_eq_ok
    (fun t => xorSum (2 * (n / 2) + t) fun i => clmul 128 (x i) (y i))
    fun t (ht : t < n - 2 * (n / 2)) =>
      gf64ClMulOne_eq (show 2 * (n / 2) + t < n by omega)
  rw [Nat.add_sub_cancel' (by omega)] at hrest
  rw [gf64ClMulSpan]
  simp only [List.length_map, List.length_range]
  rw [show (0 : Uint128) = xorSum (2 * 0) fun i => clmul 128 (x i) (y i) from rfl, hpairs]
  exact hrest

/-- **`Gf64Mul` for spans** is the inner product. -/
theorem gf64MulSpan_eq (n : ℕ) (x y : ℕ → BitVec 64) :
    gf64MulSpan ((List.range n).map x) ((List.range n).map y) = .ok (gf64Dot n x y) := by
  rw [gf64MulSpan, enforce_bind (by simp), gf64ClMulSpan_eq]
  rfl

end Spans

/-- `Gf64Mul` of two words. -/
def gf64Mul (x y : BitVec 64) : BitVec 64 := gf64Reduce (gf64ClMul x y)

/-- `kGf64Basis`. -/
def kGf64Basis : List (BitVec 64) := (List.range 64).map fun i => (1#128 <<< i).setWidth 64

/-! ### `GF(2^128)` -/

/-- `kGfMod128`. -/
def kGfMod128 : BitVec 64 := (1 <<< 7) ||| (1 <<< 2) ||| (1 <<< 1) ||| 1

/-- `Gf128ClMul` of two blocks: the high and the low block of the product. -/
def gf128ClMul (x y : Uint128) : Uint128 × Uint128 :=
  let low := mmClmulepi64Si128 x y 0x00
  let high := mmClmulepi64Si128 x y 0x11
  let mid1 := mmClmulepi64Si128 x y 0x10
  let mid2 := mmClmulepi64Si128 x y 0x01
  let mid := mid1 ^^^ mid2
  let mid1 := mid >>> 64
  let mid2 := mid <<< 64
  (high ^^^ mid1, low ^^^ mid2)

/-- The body of the loop of `Gf128ClMul` for spans. -/
def gf128ClMulOne (x y : List Uint128) (i : ℕ) (ret : Uint128 × Uint128) :
    Except Exception (Uint128 × Uint128) := do
  let (high, low) := gf128ClMul (← vecGet x i) (← vecGet y i)
  pure (ret.1 ^^^ high, ret.2 ^^^ low)

/-- `Gf128ClMul` for spans. -/
def gf128ClMulSpan (x y : List Uint128) : Except Exception (Uint128 × Uint128) := do
  enforce (x.length = y.length) "x.size() == y.size()" ""
  forLoop x.length (gf128ClMulOne x y) (0, 0)

/-- `Gf128Reduce`. -/
def gf128Reduce (high low : Uint128) : Uint128 :=
  let modulo := makeUint128 0 kGfMod128
  let (upper, carry0) := gf128ClMul high modulo
  let low := low ^^^ carry0
  let (_, carry1) := gf128ClMul upper modulo
  low ^^^ carry1

/-- `Gf128Mul` of two blocks. -/
def gf128Mul (x y : Uint128) : Uint128 :=
  let (high, low) := gf128ClMul x y
  gf128Reduce high low

/-- `Gf128Mul` for spans. -/
def gf128MulSpan (x y : List Uint128) : Except Exception Uint128 := do
  enforce (x.length = y.length) "x.size() == y.size()" ""
  let (high, low) ← gf128ClMulSpan x y
  pure (gf128Reduce high low)

/-- `kGf128Basis`. -/
def kGf128Basis : List Uint128 := (List.range 128).map fun i => 1#128 <<< i

/-- `Gf128Pack`: the inner product with the powers of `x`. -/
def gf128Pack (data : List Uint128) : Except Exception Uint128 := do
  enforce (data.length ≤ 128) "size <= 128" ""
  gf128MulSpan data (kGf128Basis.take data.length)

/-- `GfMul` for spans of blocks and of words, which are mapped to blocks. -/
def gfMulSubfieldSpan (a : List Uint128) (b : List (BitVec 64)) : Except Exception Uint128 :=
  gf128MulSpan a (b.map fun val => val.setWidth 128)

/-! ### Hashes -/

section Hashes

variable {w : ℕ} (mul : BitVec w → BitVec w → BitVec w)

/-- `UniversalHash`, for the product of the field. -/
def universalHash (seed : BitVec w) (data : List (BitVec w)) : BitVec w :=
  data.foldr (fun val ret => mul seed (ret ^^^ val)) 0

/-- The squares in `buff` of `ExtractHashCoef`. -/
def hashCoefSquares (seed : BitVec w) (maxBits : ℕ) : Except Exception (List (BitVec w)) := do
  let buff ← vecSet (List.replicate 64 0) 0 seed
  forLoop maxBits (fun i buff => do
    let prev ← vecGet buff i
    vecSet buff (i + 1) (mul prev prev)) buff

/-- The coefficient of one index. The mask is `2 ^ i`; once it is larger than `index + 1` the loop
ends, and the condition stays false. -/
def hashCoef (buff : List (BitVec w)) (index : ℕ) : BitVec w :=
  let indexPlusOne := (index + 1) % 2 ^ 64
  iterLoop 64 (fun i coef =>
    if 2 ^ i ≤ indexPlusOne ∧ indexPlusOne.testBit i then mul coef (buff.getD i 0) else coef) 1

/-- `ExtractHashCoef`. -/
def extractHashCoef (seed : BitVec w) (indexes : List ℕ) : Except Exception (List (BitVec w)) := do
  let back ← vecGet indexes (indexes.length - 1)
  let maxBits ← log2Ceil back
  let buff ← hashCoefSquares mul seed maxBits
  pure (indexes.map (hashCoef mul buff))

end Hashes

/-! ### Elements of `GF(2^64)` -/

/-- `GF(2^64)`. -/
abbrev Gf64 : Type := GF kGfMod64

section Values

variable {R : Type*} [CommRing R] (α : R)

theorem val_low64_high64 (x : Uint128) : val α x = val α (high64 x) * α ^ 64 + val α (low64 x) :=
  val_halves α (m := 64) x

variable [Algebra (ZMod 2) R]

theorem getLsbD_kGfMod64 {j : ℕ} (hj : 5 ≤ j) : kGfMod64.getLsbD j = false := by
  have hlt : kGfMod64.toNat < 2 ^ j :=
    (by decide : kGfMod64.toNat < 2 ^ 5).trans_le (Nat.pow_le_pow_right (by omega) hj)
  rw [← BitVec.testBit_toNat, Nat.testBit_lt_two_pow hlt]

theorem getLsbD_high64 (x : Uint128) (j : ℕ) :
    (high64 x).getLsbD j = (decide (j < 64) && x.getLsbD (64 + j)) := by
  rw [high64, BitVec.getLsbD_extractLsb']

/-- The second product of the reduction is a word, since the first one exceeds a word by at most
four bits. -/
theorem high64_clmul_high64 (x : BitVec 64) :
    high64 (clmul 128 kGfMod64 (high64 (clmul 128 kGfMod64 x))) = 0 := by
  have hx : ∀ j, 64 ≤ j → x.getLsbD j = false := fun j hj => BitVec.getLsbD_of_ge x j hj
  have hhigh : ∀ j, 4 ≤ j → (high64 (clmul 128 kGfMod64 x)).getLsbD j = false := by
    intro j hj
    rw [getLsbD_high64, getLsbD_clmul_of_le (fun j hj => getLsbD_kGfMod64 hj) hx (by omega),
      Bool.and_false]
  refine BitVec.eq_of_getLsbD_eq fun j _ => ?_
  rw [getLsbD_high64, getLsbD_clmul_of_le (fun j hj => getLsbD_kGfMod64 hj) hhigh (by omega)]
  simp

theorem mmClmulepi64Si128_modulo (x : Uint128) :
    mmClmulepi64Si128 (makeUint128 0 kGfMod64) x 0x10 = clmul 128 kGfMod64 (high64 x) := by
  rw [mmClmulepi64Si128, if_neg (by decide), if_pos (by decide), low64_makeUint128]

/-- **The reduction** to a word keeps the value at a root of the modulus. -/
theorem val_gf64Reduce (h : α ^ 64 = val α kGfMod64) (x : Uint128) :
    val α (gf64Reduce x) = val α x := by
  have h1 := val_low64_high64 α (clmul 128 kGfMod64 (high64 x))
  have h2 := val_low64_high64 α (clmul 128 kGfMod64 (high64 (clmul 128 kGfMod64 (high64 x))))
  rw [high64_clmul_high64, val_zero, zero_mul, zero_add, val_clmul α (by omega), ← h] at h2
  rw [val_clmul α (by omega), ← h] at h1
  rw [gf64Reduce, mmClmulepi64Si128_modulo, mmClmulepi64Si128_modulo, low64_xor, low64_xor,
    val_xor, val_xor, ← h2, val_low64_high64 α x, mul_comm (val α (high64 x)), h1]
  ring

end Values

theorem elem_gf64Dot (n : ℕ) (x y : ℕ → BitVec 64) :
    (elem kGfMod64 (gf64Dot n x y) : Gf64) =
      ∑ i ∈ Finset.range n, elem kGfMod64 (x i) * elem kGfMod64 (y i) := by
  rw [gf64Dot, elem, val_gf64Reduce _ (root_pow kGfMod64), val_xorSum]
  exact Finset.sum_congr rfl fun i _ => val_clmul _ (by omega) _ _

theorem elem_gf64Mul (x y : BitVec 64) :
    (elem kGfMod64 (gf64Mul x y) : Gf64) = elem kGfMod64 x * elem kGfMod64 y := by
  rw [gf64Mul, gf64ClMul_eq, elem, val_gf64Reduce _ (root_pow kGfMod64)]
  exact val_clmul _ (by omega) _ _

/-! ### Elements of `GF(2^128)` -/

/-- The modulus of `GF(2^128)` without its leading term, as a block. -/
def gfModulo128 : Uint128 := makeUint128 0 kGfMod128

/-- `GF(2^128)`. -/
abbrev Gf128 : Type := GF gfModulo128

section Values

variable {R : Type*} [CommRing R] (α : R)

theorem val_ushiftRight_64 (x : Uint128) : val α (x >>> 64) = val α (high64 x) := by
  refine val_congr α fun i => ?_
  rw [BitVec.getLsbD_ushiftRight, getLsbD_high64]
  by_cases hi : i < 64
  · rw [decide_eq_true hi, Bool.true_and]
  · rw [decide_eq_false hi, Bool.false_and, BitVec.getLsbD_of_ge _ _ (by omega)]

theorem val_shiftLeft_64 (x : Uint128) : val α (x <<< 64) = val α (low64 x) * α ^ 64 := by
  rw [← val_shiftLeft α (show 64 + 64 ≤ 128 by omega)]
  refine val_congr α fun i => ?_
  rw [BitVec.getLsbD_shiftLeft, BitVec.getLsbD_shiftLeft, low64, BitVec.getLsbD_setWidth,
    BitVec.getLsbD_extractLsb']
  by_cases hi : i < 128
  · rw [decide_eq_true (show i - 64 < 64 by omega), decide_eq_true (show i - 64 < 128 by omega)]
    simp
  · simp [hi]

variable [Algebra (ZMod 2) R]

/-- **The product of two blocks.** -/
theorem val_gf128ClMul (x y : Uint128) :
    val α (gf128ClMul x y).1 * α ^ 128 + val α (gf128ClMul x y).2 = val α x * val α y := by
  have hmid := val_low64_high64 α (mmClmulepi64Si128 x y 0x10 ^^^ mmClmulepi64Si128 x y 0x01)
  have hhalf : ∀ imm, val α (mmClmulepi64Si128 x y imm) =
      val α (if imm.getLsbD 0 then high64 x else low64 x) *
        val α (if imm.getLsbD 4 then high64 y else low64 y) :=
    fun imm => val_clmul α (by omega) _ _
  rw [val_xor, hhalf, hhalf, if_neg (by decide), if_pos (by decide), if_pos (by decide),
    if_neg (by decide)] at hmid
  rw [gf128ClMul]
  rw [val_xor, val_xor, hhalf, hhalf, if_pos (by decide), if_pos (by decide), if_neg (by decide),
    if_neg (by decide), val_ushiftRight_64, val_shiftLeft_64, val_low64_high64 α x,
    val_low64_high64 α y]
  linear_combination -(α ^ 64) * hmid

theorem high64_ushiftRight (x : Uint128) : high64 (x >>> 64) = 0 := by
  refine BitVec.eq_of_getLsbD_eq fun j _ => ?_
  rw [getLsbD_high64, BitVec.getLsbD_ushiftRight, BitVec.getLsbD_of_ge _ _ (by omega)]
  simp

theorem clmul_zero_right {n : ℕ} (w : ℕ) (x : BitVec n) : clmul w x 0 = 0 :=
  xorSum_eq_zero fun i _ => by simp

theorem high64_gf128ClMul_modulo (x : Uint128) : high64 (gf128ClMul x gfModulo128).1 = 0 := by
  rw [gf128ClMul]
  rw [high64_xor, high64_ushiftRight, mmClmulepi64Si128, if_pos (by decide), if_pos (by decide),
    gfModulo128, high64_makeUint128, clmul_zero_right]
  decide

theorem gf128ClMul_modulo_of_high64 {x : Uint128} (h : high64 x = 0) :
    (gf128ClMul x gfModulo128).1 = 0 := by
  rw [gf128ClMul]
  dsimp only
  rw [mmClmulepi64Si128, mmClmulepi64Si128, mmClmulepi64Si128, if_pos (by decide),
    if_pos (by decide), if_neg (by decide), if_pos (by decide), if_pos (by decide), gfModulo128,
    high64_makeUint128, h, clmul_zero_right, clmul_zero_right]
  decide

/-- **The reduction** of a high and a low block. -/
theorem val_gf128Reduce (h : α ^ 128 = val α gfModulo128) (high low : Uint128) :
    val α (gf128Reduce high low) = val α high * α ^ 128 + val α low := by
  have h1 := val_gf128ClMul α high gfModulo128
  have h2 := val_gf128ClMul α (gf128ClMul high gfModulo128).1 gfModulo128
  rw [gf128ClMul_modulo_of_high64 (high64_gf128ClMul_modulo high), val_zero, zero_mul, zero_add,
    ← h] at h2
  rw [← h] at h1
  calc val α (gf128Reduce high low)
      = val α low + val α (gf128ClMul high gfModulo128).2 +
          val α (gf128ClMul (gf128ClMul high gfModulo128).1 gfModulo128).2 := by
        rw [← val_xor, ← val_xor]
        rfl
    _ = val α high * α ^ 128 + val α low := by
        rw [h2, ← h1]
        ring

end Values

theorem elem_gf128Mul (x y : Uint128) :
    (elem gfModulo128 (gf128Mul x y) : Gf128) = elem gfModulo128 x * elem gfModulo128 y := by
  rw [gf128Mul, elem, val_gf128Reduce _ (root_pow gfModulo128), val_gf128ClMul]
  rfl

/-- The inner product of two sequences in `GF(2^128)`. -/
def gf128Dot (n : ℕ) (x y : ℕ → Uint128) : Uint128 :=
  gf128Reduce (xorSum n fun i => (gf128ClMul (x i) (y i)).1)
    (xorSum n fun i => (gf128ClMul (x i) (y i)).2)

theorem elem_gf128Dot (n : ℕ) (x y : ℕ → Uint128) :
    (elem gfModulo128 (gf128Dot n x y) : Gf128) =
      ∑ i ∈ Finset.range n, elem gfModulo128 (x i) * elem gfModulo128 (y i) := by
  rw [gf128Dot, elem, val_gf128Reduce _ (root_pow gfModulo128), val_xorSum, val_xorSum,
    Finset.sum_mul, ← Finset.sum_add_distrib]
  exact Finset.sum_congr rfl fun i _ => val_gf128ClMul _ _ _

/-- **`Gf128Mul` for spans** is the inner product. -/
theorem gf128MulSpan_eq (n : ℕ) (x y : ℕ → Uint128) :
    gf128MulSpan ((List.range n).map x) ((List.range n).map y) = .ok (gf128Dot n x y) := by
  have hstep : ∀ i < n, gf128ClMulOne ((List.range n).map x) ((List.range n).map y) i
      (xorSum i fun i => (gf128ClMul (x i) (y i)).1, xorSum i fun i => (gf128ClMul (x i) (y i)).2) =
        .ok (xorSum (i + 1) fun i => (gf128ClMul (x i) (y i)).1,
          xorSum (i + 1) fun i => (gf128ClMul (x i) (y i)).2) := by
    intro i hi
    rw [gf128ClMulOne, vecGet_map_range hi, vecGet_map_range hi]
    rfl
  have hloop := forLoop_eq_ok (fun i => (xorSum i fun i => (gf128ClMul (x i) (y i)).1,
    xorSum i fun i => (gf128ClMul (x i) (y i)).2)) hstep
  rw [gf128MulSpan, enforce_bind (by simp), gf128ClMulSpan, enforce_bind (by simp), List.length_map,
    List.length_range]
  exact congrArg (· >>= fun ret => pure (gf128Reduce ret.1 ret.2)) hloop

/-! ### Remainders -/

open Polynomial in
theorem modulus_kGfMod64 : modulus kGfMod64 = X ^ 64 + X ^ 4 + X ^ 3 + X + 1 := by
  have hbits : kGfMod64 = 1#64 <<< 4 ^^^ 1#64 <<< 3 ^^^ 1#64 <<< 1 ^^^ 1#64 <<< 0 := by decide
  rw [modulus, hbits, val_xor, val_xor, val_xor, val_one_shiftLeft X (by omega),
    val_one_shiftLeft X (by omega), val_one_shiftLeft X (by omega), val_one_shiftLeft X (by omega)]
  ring

open Polynomial in
theorem modulus_gfModulo128 : modulus gfModulo128 = X ^ 128 + X ^ 7 + X ^ 2 + X + 1 := by
  have hbits : gfModulo128 = 1#128 <<< 7 ^^^ 1#128 <<< 2 ^^^ 1#128 <<< 1 ^^^ 1#128 <<< 0 := by
    decide
  rw [modulus, hbits, val_xor, val_xor, val_xor, val_one_shiftLeft X (by omega),
    val_one_shiftLeft X (by omega), val_one_shiftLeft X (by omega), val_one_shiftLeft X (by omega)]
  ring

theorem gf64Dot_eq_xorSum (n : ℕ) (x y : ℕ → BitVec 64) :
    gf64Dot n x y = xorSum n fun i => gf64Mul (x i) (y i) := by
  refine elem_injective kGfMod64 ?_
  rw [elem_gf64Dot, elem, val_xorSum]
  exact Finset.sum_congr rfl fun i _ => (elem_gf64Mul _ _).symm

theorem gf128Dot_eq_xorSum (n : ℕ) (x y : ℕ → Uint128) :
    gf128Dot n x y = xorSum n fun i => gf128Mul (x i) (y i) := by
  refine elem_injective gfModulo128 ?_
  rw [elem_gf128Dot, elem, val_xorSum]
  exact Finset.sum_congr rfl fun i _ => (elem_gf128Mul _ _).symm

theorem foldl_xor_zipWith {w : ℕ} (mul : BitVec w → BitVec w → BitVec w) (n : ℕ)
    (x y : ℕ → BitVec w) :
    (List.zipWith mul ((List.range n).map x) ((List.range n).map y)).foldl (· ^^^ ·) 0 =
      xorSum n fun i => mul (x i) (y i) := by
  rw [List.zipWith_map, List.zipWith_self, foldl_xor_map_range]

theorem exists_eq_map_range {α : Type} (a : α) (x : List α) :
    ∃ f : ℕ → α, x = (List.range x.length).map f := by
  refine ⟨fun i => x.getD i a, List.ext_getElem (by simp) fun i h _ => ?_⟩
  simp [List.getElem?_eq_getElem h]

open Polynomial in
/-- **Products in the binary fields.** As polynomials, the words that `Gf128Mul` and `Gf64Mul`
return are the remainders of the products; and for spans of the same size, whatever it is, the
inner products that are reduced once are the sums of the products. -/
theorem gfMul_eq_modByMonic :
    (∀ x y : Uint128, (val X (gf128Mul x y) : (ZMod 2)[X]) =
      (val X x * val X y) %ₘ (X ^ 128 + X ^ 7 + X ^ 2 + X + 1)) ∧
    (∀ x y : BitVec 64, (val X (gf64Mul x y) : (ZMod 2)[X]) =
      (val X x * val X y) %ₘ (X ^ 64 + X ^ 4 + X ^ 3 + X + 1)) ∧
    (∀ x y : List Uint128, x.length = y.length →
      gf128MulSpan x y = .ok ((List.zipWith gf128Mul x y).foldl (· ^^^ ·) 0)) ∧
    ∀ x y : List (BitVec 64), x.length = y.length →
      gf64MulSpan x y = .ok ((List.zipWith gf64Mul x y).foldl (· ^^^ ·) 0) := by
  refine ⟨fun x y => ?_, fun x y => ?_, fun x y h => ?_, fun x y h => ?_⟩
  · rw [← modulus_gfModulo128]
    refine val_X_eq_modByMonic ?_
    rw [elem_gf128Mul, map_mul, elem_eq_mk, elem_eq_mk]
  · rw [← modulus_kGfMod64]
    refine val_X_eq_modByMonic ?_
    rw [elem_gf64Mul, map_mul, elem_eq_mk, elem_eq_mk]
  · obtain ⟨f, hf⟩ := exists_eq_map_range 0 x
    obtain ⟨g, hg⟩ := exists_eq_map_range 0 y
    rw [hf, hg, ← h, gf128MulSpan_eq, gf128Dot_eq_xorSum, foldl_xor_zipWith]
  · obtain ⟨f, hf⟩ := exists_eq_map_range 0 x
    obtain ⟨g, hg⟩ := exists_eq_map_range 0 y
    rw [hf, hg, ← h, gf64MulSpan_eq, gf64Dot_eq_xorSum, foldl_xor_zipWith]

/-- Spans of three words, an odd number. -/
theorem gf64MulSpan_three :
    gf64MulSpan [3, 5, 7] [2, 1, 4] =
      .ok ((List.zipWith gf64Mul [3, 5, 7] [2, 1, 4]).foldl (· ^^^ ·) 0) :=
  gfMul_eq_modByMonic.2.2.2 [3, 5, 7] [2, 1, 4] rfl

end Yacl.Math
