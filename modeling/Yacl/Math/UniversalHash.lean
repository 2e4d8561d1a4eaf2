import Yacl.Math.GaloisField

/-!
# The universal hash and its coefficients

`UniversalHash` of `yacl/math/galois_field/gf_intrinsic.h` is the value of a polynomial at the seed:
entry `i` of the data is multiplied by `seed ^ (i + 1)` (`elem_universalHash`), so that a change of
the entry changes the hash by the product of the change with that coefficient.

`ExtractHashCoef` assembles the coefficients from a table of the repeated squares of the seed. The
size of the table comes from the largest index itself, not from the exponent, which is larger by
one. The table is too short when the largest index is `1`, and there is no logarithm of `0`; the
coefficients are right for every larger index that has a table (`hashCoef_correct_iff`).
-/

open BinaryField Loop

namespace Yacl.Math

/-! ### Powers of words -/

section Powers

variable {w : ℕ} (mul : BitVec w → BitVec w → BitVec w)

/-- The power of a word, for a product of words. -/
def gfPow (x : BitVec w) : ℕ → BitVec w
  | 0 => 1
  | n + 1 => mul (gfPow x n) x

/-- The data with changes added to some entries. -/
def changeAt (data : List (BitVec w)) (changes : List (ℕ × BitVec w)) : List (BitVec w) :=
  changes.foldl (fun data change => data.modify change.1 (· ^^^ change.2)) data

/-- The exclusive-or of a list. -/
def xorAll (l : List (BitVec w)) : BitVec w := l.foldr (· ^^^ ·) 0

/-- **The coefficients of a list of indexes.** Whatever the seed is, and whatever the data are that
have these indexes, `ExtractHashCoef` returns the powers of the seed, and they tell how changes at
the indexes change the hash. -/
def HashCoefCorrect (indexes : List ℕ) : Prop :=
  ∀ (seed : BitVec w) (data : List (BitVec w)), (∀ j ∈ indexes, j < data.length) →
    ∃ coef, extractHashCoef mul seed indexes = .ok coef ∧
      coef = indexes.map (fun j => gfPow mul seed (j + 1)) ∧
      ∀ d : List (BitVec w), d.length = indexes.length →
        universalHash mul seed (changeAt data (indexes.zip d)) =
          universalHash mul seed data ^^^ xorAll (List.zipWith mul coef d)

end Powers

/-! ### The hash as a polynomial -/

section Field

variable {w : ℕ} {mul : BitVec w → BitVec w → BitVec w} {m : BitVec w}
  (hw : 0 < w) (hmul : ∀ x y, elem m (mul x y) = elem m x * elem m y)

include hw hmul

theorem elem_gfPow (x : BitVec w) (n : ℕ) : elem m (gfPow mul x n) = elem m x ^ n := by
  induction n with
  | zero => rw [pow_zero]; exact elem_one m hw
  | succ n ih => rw [gfPow, hmul, ih, pow_succ]

omit hw in
/-- **The hash** is the value of the polynomial with the entries of the data as coefficients. -/
theorem elem_universalHash (seed : BitVec w) (data : List (BitVec w)) :
    elem m (universalHash mul seed data) =
      ∑ i ∈ Finset.range data.length, elem m seed ^ (i + 1) * elem m (data.getD i 0) := by
  induction data with
  | nil => exact elem_zero m w
  | cons val data ih =>
    have hcons : universalHash mul seed (val :: data) =
        mul seed (universalHash mul seed data ^^^ val) := rfl
    rw [hcons, hmul, elem_xor, ih, mul_add, Finset.mul_sum, List.length_cons,
      Finset.sum_range_succ', zero_add, pow_one]
    refine congrArg₂ (· + ·) (Finset.sum_congr rfl fun i _ => ?_) rfl
    rw [List.getD_cons_succ, pow_succ' _ (i + 1), mul_assoc]

/-- **One change** of the data. -/
theorem universalHash_modify (seed x : BitVec w) {data : List (BitVec w)} {j : ℕ}
    (hj : j < data.length) : universalHash mul seed (data.modify j (· ^^^ x)) =
      universalHash mul seed data ^^^ mul (gfPow mul seed (j + 1)) x := by
  refine elem_injective m ?_
  have hentry : ∀ i ∈ Finset.range data.length,
      elem m seed ^ (i + 1) * elem m ((data.modify j (· ^^^ x)).getD i 0) =
        elem m seed ^ (i + 1) * elem m (data.getD i 0) +
          if i = j then elem m seed ^ (j + 1) * elem m x else 0 := by
    intro i hi
    rw [Finset.mem_range] at hi
    rw [List.getD_eq_getElem?_getD, List.getElem?_modify, List.getD_eq_getElem?_getD,
      List.getElem?_eq_getElem hi]
    by_cases hij : i = j
    · subst hij
      simp [elem_xor, mul_add]
    · simp [hij, Ne.symm hij]
  rw [elem_xor, elem_universalHash hmul, elem_universalHash hmul, hmul, elem_gfPow hw hmul,
    List.length_modify, Finset.sum_congr rfl hentry, Finset.sum_add_distrib, Finset.sum_ite_eq',
    if_pos (Finset.mem_range.mpr hj)]

variable {indexes : List ℕ}

/-- **Many changes** of the data, one after the other. -/
theorem universalHash_changeAt (seed : BitVec w) {data : List (BitVec w)}
    (hdata : ∀ j ∈ indexes, j < data.length) (d : List (BitVec w)) :
    universalHash mul seed (changeAt data (indexes.zip d)) = universalHash mul seed data ^^^
      xorAll (List.zipWith mul (indexes.map fun j => gfPow mul seed (j + 1)) d) := by
  induction indexes generalizing data d with
  | nil => simp [changeAt, xorAll]
  | cons j indexes ih =>
    cases d with
    | nil => simp [changeAt, xorAll]
    | cons x d =>
      have hj : j < data.length := hdata j List.mem_cons_self
      have hrest : ∀ k ∈ indexes, k < (data.modify j (· ^^^ x)).length := by
        intro k hk
        rw [List.length_modify]
        exact hdata k (List.mem_cons_of_mem j hk)
      have hstep : changeAt data ((j, x) :: indexes.zip d) =
          changeAt (data.modify j (· ^^^ x)) (indexes.zip d) := rfl
      rw [List.zip_cons_cons, hstep, ih hrest, universalHash_modify hw hmul seed x hj,
        BitVec.xor_assoc]
      rfl

/-! ### Square and multiply -/

/-- The loop of `ExtractHashCoef` for one index multiplies the entries of the table that the bits
of `index + 1` select. -/
theorem elem_hashCoef (buff : List (BitVec w)) (index : ℕ) :
    elem m (hashCoef mul buff index) = ∏ i ∈ Finset.range 64,
      if ((index + 1) % 2 ^ 64).testBit i then elem m (buff.getD i 0) else 1 := by
  have hloop : ∀ n, elem m (iterLoop n (fun i coef =>
      if 2 ^ i ≤ (index + 1) % 2 ^ 64 ∧ ((index + 1) % 2 ^ 64).testBit i then
        mul coef (buff.getD i 0) else coef) 1) = ∏ i ∈ Finset.range n,
      if ((index + 1) % 2 ^ 64).testBit i then elem m (buff.getD i 0) else 1 := by
    intro n
    induction n with
    | zero => rw [Finset.prod_range_zero]; exact elem_one m hw
    | succ n ih =>
      rw [iterLoop_succ, Finset.prod_range_succ, ← ih]
      by_cases hbit : ((index + 1) % 2 ^ 64).testBit n
      · rw [if_pos ⟨Nat.ge_two_pow_of_testBit hbit, hbit⟩, if_pos hbit, hmul]
      · rw [if_neg fun h => hbit h.2, if_neg hbit, mul_one]
  exact hloop 64

omit hw hmul in
theorem prod_testBit_pow {R : Type*} [CommMonoid R] (s : R) (n k : ℕ) :
    (∏ i ∈ Finset.range k, if n.testBit i then s ^ 2 ^ i else 1) = s ^ (n % 2 ^ k) := by
  induction k with
  | zero => simp [Nat.mod_one]
  | succ k ih =>
    rw [Finset.prod_range_succ, ih, Nat.mod_pow_succ, pow_add, Nat.testBit_eq_decide_div_mod_eq]
    rcases Nat.mod_two_eq_zero_or_one (n / 2 ^ k) with hbit | hbit
    · simp [hbit]
    · simp [hbit]

omit hw hmul in
theorem getD_set_of_lt {l : List (BitVec w)} {k i : ℕ} (hk : k < l.length) (a : BitVec w) :
    (l.set k a).getD i 0 = if k = i then a else l.getD i 0 := by
  rw [List.getD_eq_getElem?_getD, List.getElem?_set, if_pos hk]
  split
  · rfl
  · rfl

/-- **The table** has the repeated squares up to its size, and zeros after it. -/
structure Squares (m seed : BitVec w) (maxBits : ℕ) (buff : List (BitVec w)) : Prop where
  length_eq : buff.length = 64
  square : ∀ i ≤ maxBits, elem m (buff.getD i 0) = elem m seed ^ 2 ^ i
  zero : ∀ i, maxBits < i → buff.getD i 0 = 0

variable {maxBits : ℕ}

omit hw in
theorem hashCoefSquares_eq (seed : BitVec w) (h : maxBits < 64) :
    ∃ buff, hashCoefSquares mul seed maxBits = .ok buff ∧ Squares m seed maxBits buff := by
  have hinit : Squares m seed 0 ((List.replicate 64 (0 : BitVec w)).set 0 seed) := by
    refine ⟨by simp, fun i hi => ?_, fun i hi => ?_⟩
    · rw [getD_set_of_lt (by simp), if_pos (by omega), Nat.le_zero.mp hi, pow_zero, pow_one]
    · rw [getD_set_of_lt (by simp), if_neg (by omega)]
      rw [List.getD_eq_getElem?_getD, List.getElem?_replicate]
      split
      · rfl
      · rfl
  rw [hashCoefSquares, vecSet_of_lt (by simp), ok_bind]
  refine forLoop_ok (Squares m seed) hinit fun i hi buff hbuff => ?_
  have hlen := hbuff.length_eq
  have hprev : buff[i]? = some (buff.getD i 0) := by
    rw [List.getD_eq_getElem?_getD, List.getElem?_eq_getElem (by omega), Option.getD_some]
  refine ⟨buff.set (i + 1) (mul (buff.getD i 0) (buff.getD i 0)), ?_, ?_⟩
  · rw [vecGet_of_getElem? hprev, ok_bind, vecSet_of_lt (by omega)]
  refine ⟨by simp [hlen], fun k hk => ?_, fun k hk => ?_⟩
  · rw [getD_set_of_lt (by omega)]
    split
    · next heq => rw [← heq, hmul, hbuff.square i le_rfl, pow_succ 2 i, pow_mul, sq]
    · exact hbuff.square k (by omega)
  · rw [getD_set_of_lt (by omega), if_neg (by omega)]
    exact hbuff.zero k (by omega)

omit hw hmul in
theorem hashCoefSquares_ne_ok (seed : BitVec w) (h : 64 ≤ maxBits) (buff : List (BitVec w)) :
    hashCoefSquares mul seed maxBits ≠ .ok buff := by
  intro heq
  rw [hashCoefSquares, vecSet_of_lt (by simp), ok_bind] at heq
  have hinv := forLoop_of_ok heq (fun i buff => buff.length = 64 ∧ i < 64) (by simp) ?_
  · omega
  rintro i - buff buff' ⟨hlen, hi⟩ hstep
  obtain ⟨prev, -, hset⟩ := of_bind_eq_ok hstep
  by_cases hlt : i + 1 < buff.length
  · rw [vecSet_of_lt hlt] at hset
    exact ⟨by rw [← Except.ok.inj hset, List.length_set, hlen], by omega⟩
  · rw [vecSet, if_neg hlt] at hset
    exact absurd hset (by simp [throw, throwThe, MonadExceptOf.throw])

/-- **A coefficient** is a power of the seed, if the table has all the squares it needs. -/
theorem hashCoef_eq_gfPow {seed : BitVec w} {index : ℕ} {buff : List (BitVec w)}
    (hbuff : Squares m seed maxBits buff) (hindex : index + 1 < 2 ^ (maxBits + 1))
    (h64 : index + 1 < 2 ^ 64) : hashCoef mul buff index = gfPow mul seed (index + 1) := by
  refine elem_injective m ?_
  rw [elem_hashCoef hw hmul, elem_gfPow hw hmul, Nat.mod_eq_of_lt h64]
  rw [← Nat.mod_eq_of_lt h64, ← prod_testBit_pow, Nat.mod_eq_of_lt h64]
  refine Finset.prod_congr rfl fun i _ => ?_
  by_cases hbit : (index + 1).testBit i
  · have hlt : 2 ^ i < 2 ^ (maxBits + 1) := (Nat.ge_two_pow_of_testBit hbit).trans_lt hindex
    rw [Nat.pow_lt_pow_iff_right (by omega)] at hlt
    rw [if_pos hbit, if_pos hbit, hbuff.square i (by omega)]
  · rw [if_neg hbit, if_neg hbit]

/-! ### Lists of indexes -/

omit hw hmul in
theorem extractHashCoef_eq (seed : BitVec w) (hne : indexes ≠ []) :
    extractHashCoef mul seed indexes = (do
      let maxBits ← log2Ceil (indexes.getLast hne)
      let buff ← hashCoefSquares mul seed maxBits
      pure (indexes.map (hashCoef mul buff))) := by
  have hback : vecGet indexes (indexes.length - 1) = .ok (indexes.getLast hne) := by
    refine vecGet_of_getElem? ?_
    rw [List.getLast_eq_getElem, List.getElem?_eq_getElem]
  rw [extractHashCoef, hback, ok_bind]

omit hw hmul in
theorem le_getLast (hne : indexes ≠ []) (hsorted : indexes.Pairwise (· < ·)) {j : ℕ}
    (hj : j ∈ indexes) : j ≤ indexes.getLast hne := by
  obtain ⟨i, hi, rfl⟩ := List.getElem_of_mem hj
  rw [List.getLast_eq_getElem]
  rcases Nat.lt_or_ge i (indexes.length - 1) with hlt | hge
  · exact (List.pairwise_iff_getElem.mp hsorted i _ hi (by omega) hlt).le
  · have heq : i = indexes.length - 1 := by omega
    subst heq
    exact le_rfl

/-- **The largest index is in the range of the table.** -/
theorem hashCoefCorrect_of_getLast (hne : indexes ≠ []) (hsorted : indexes.Pairwise (· < ·))
    (h2 : 2 ≤ indexes.getLast hne) (h63 : indexes.getLast hne ≤ 2 ^ 63) :
    HashCoefCorrect mul indexes := by
  intro seed data hdata
  obtain ⟨l, hl, -, hup⟩ := ceilLog2_spec (show 1 < indexes.getLast hne by omega)
  have hbits : ceilLog2 (indexes.getLast hne) ≤ 63 := ceilLog2_le (by omega) h63
  obtain ⟨buff, hbuff, hsquares⟩ := hashCoefSquares_eq hmul seed (show l + 1 < 64 by omega)
  have hcoef : indexes.map (hashCoef mul buff) = indexes.map fun j => gfPow mul seed (j + 1) := by
    refine List.map_congr_left fun j hj => ?_
    have hle := le_getLast hne hsorted hj
    refine hashCoef_eq_gfPow hw hmul hsquares ?_ (by omega)
    -- the exponent is at most `2 ^ (l + 1) + 1`
    omega
  refine ⟨_, ?_, hcoef, fun d _ => ?_⟩
  · rw [extractHashCoef_eq seed hne, log2Ceil_eq (by omega), ok_bind, hl, hbuff]
    rfl
  · rw [hcoef]
    exact universalHash_changeAt hw hmul seed hdata d

omit hw hmul in
theorem HashCoefCorrect.extract (hne : indexes ≠ []) (hsorted : indexes.Pairwise (· < ·))
    (h : HashCoefCorrect mul indexes) (seed : BitVec w) :
    extractHashCoef mul seed indexes = .ok (indexes.map fun j => gfPow mul seed (j + 1)) := by
  obtain ⟨coef, hcoef, rfl, -⟩ := h seed (List.replicate (indexes.getLast hne + 1) 0) fun j hj => by
    rw [List.length_replicate]
    exact Nat.lt_succ_of_le (le_getLast hne hsorted hj)
  exact hcoef

theorem hashCoef_one {seed : BitVec w} {buff : List (BitVec w)} (hbuff : Squares m seed 0 buff) :
    elem m (hashCoef mul buff 1) = 0 := by
  rw [elem_hashCoef hw hmul]
  refine Finset.prod_eq_zero (i := 1) (by simp) ?_
  rw [hbuff.zero 1 (by omega)]
  exact elem_zero m w

/-- **The largest index is out of the range of the table.** -/
theorem not_hashCoefCorrect (hne : indexes ≠ []) (hsorted : indexes.Pairwise (· < ·))
    (hlast : indexes.getLast hne < 2 ∨ 2 ^ 63 < indexes.getLast hne) :
    ¬HashCoefCorrect mul indexes := by
  intro h
  have hextract := h.extract hne hsorted 1#w
  rw [extractHashCoef_eq 1#w hne] at hextract
  obtain ⟨maxBits, hlog, hextract⟩ := of_bind_eq_ok hextract
  obtain ⟨buff, hsq, hmap⟩ := of_bind_eq_ok hextract
  rcases show indexes.getLast hne = 0 ∨ indexes.getLast hne = 1 ∨ 2 ^ 63 < indexes.getLast hne by
    omega with h0 | h1 | hbig
  · rw [h0] at hlog
    exact (of_enforce_bind hlog).1 rfl
  · rw [h1] at hlog
    obtain rfl : 0 = maxBits := Except.ok.inj hlog
    obtain ⟨buff', hbuff', hsquares⟩ := hashCoefSquares_eq hmul 1#w (show 0 < 64 by omega)
    obtain rfl : buff' = buff := Except.ok.inj (hbuff'.symm.trans hsq)
    -- the entry of the last index in both lists
    have hentry := List.map_inj_left.mp (Except.ok.inj hmap) _ (List.getLast_mem hne)
    have helem := congrArg (elem m) hentry
    rw [h1, hashCoef_one hw hmul hsquares, elem_gfPow hw hmul, elem_one m hw, one_pow,
      ← elem_zero m w, ← elem_one m hw] at helem
    have hbit := congrArg (BitVec.getLsbD · 0) (elem_injective m helem)
    simp [hw] at hbit
  · rw [log2Ceil_eq (by omega)] at hlog
    obtain ⟨l, hl, hlow, hup⟩ := ceilLog2_spec (show 1 < indexes.getLast hne by omega)
    refine hashCoefSquares_ne_ok 1#w ?_ buff hsq
    rw [← Except.ok.inj hlog]
    have hlt : 63 < l + 1 := (Nat.pow_lt_pow_iff_right (by omega)).mp (hbig.trans_le hup)
    omega

end Field

/-! ### The types of the templates -/

/-- The types `T` for which there is a product `GfMul`. -/
inductive HashType where
  | uint64
  | uint128

namespace HashType

/-- The number of bits of the type. -/
def width : HashType → ℕ
  | uint64 => 64
  | uint128 => 128

/-- `GfMul`. -/
def gfMul : (T : HashType) → BitVec T.width → BitVec T.width → BitVec T.width
  | uint64 => gf64Mul
  | uint128 => gf128Mul

/-- The modulus of the field. -/
def modulo : (T : HashType) → BitVec T.width
  | uint64 => kGfMod64
  | uint128 => gfModulo128

theorem width_pos : ∀ T : HashType, 0 < T.width
  | uint64 => by decide
  | uint128 => by decide

theorem elem_gfMul : ∀ (T : HashType) (x y : BitVec T.width),
    elem T.modulo (T.gfMul x y) = elem T.modulo x * elem T.modulo y
  | uint64 => elem_gf64Mul
  | uint128 => elem_gf128Mul

end HashType

/-- **`ExtractHashCoef`** is right for a list of indexes exactly if the largest one is at least `2`,
and at most `2 ^ 63`, which every vector in memory keeps. -/
theorem hashCoef_correct_iff (T : HashType) {indexes : List ℕ} (hne : indexes ≠ [])
    (hsorted : indexes.Pairwise (· < ·)) : HashCoefCorrect T.gfMul indexes ↔
      2 ≤ indexes.getLast hne ∧ indexes.getLast hne ≤ 2 ^ 63 := by
  constructor
  · intro h
    by_contra hlast
    exact not_hashCoefCorrect T.width_pos T.elem_gfMul hne hsorted (by omega) h
  · rintro ⟨h2, h63⟩
    exact hashCoefCorrect_of_getLast T.width_pos T.elem_gfMul hne hsorted h2 h63

/-- The indexes `0` and `2`. -/
theorem hashCoef_correct_zero_two : HashCoefCorrect HashType.uint128.gfMul [0, 2] :=
  (hashCoef_correct_iff .uint128 (by simp) (by simp)).mpr (by simp)

/-- The index `0` has no logarithm. -/
theorem not_hashCoefCorrect_zero : ¬HashCoefCorrect HashType.uint128.gfMul [0] :=
  not_hashCoefCorrect HashType.uint128.width_pos HashType.uint128.elem_gfMul (by simp) (by simp)
    (by simp)

end Yacl.Math
