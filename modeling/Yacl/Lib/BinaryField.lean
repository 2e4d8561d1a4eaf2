import Mathlib.FieldTheory.Finite.Extension
import Yacl.Lib.Bits
import Yacl.Lib.XorSum

/-!
# Words as elements of a binary field

A word is a polynomial over the field of two elements, whose coefficients are its bits. `val α x`
is the value of the word `x` at an element `α` of an algebra over that field: exclusive-or becomes
addition (`val_xor`) and the full carry-less product becomes multiplication (`val_clmul`).

The **binary field** `BinaryField w m` of words of `w` bits is the ring of polynomials modulo
`X ^ w + m`, where the word `m` holds the lower coefficients of the modulus; `elem m` is the element
of a word. The residue of `X` satisfies the modulus (`root_pow`), which is all that a reduction
uses: a word times `X ^ w` has the same element as its product with `m`. A word of `w` bits is the
remainder modulo `X ^ w + m` of every polynomial that has its element (`val_X_eq_modByMonic`).

Whether the modulus is irreducible is settled by computing in the ring: **Rabin's test**
(`irreducible_modulus`) asks for two facts about the powers `2 ^ n` of the residue of `X`.
-/

open Polynomial XorSum

namespace BinaryField

section Values

variable {R : Type*} [CommRing R] (α : R)

/-- The value of a word at `α`. -/
def val {w : ℕ} (x : BitVec w) : R := ∑ i ∈ Finset.range w, if x.getLsbD i then α ^ i else 0

variable {w n : ℕ}

theorem val_eq_sum (h : w ≤ n) (x : BitVec w) :
    val α x = ∑ i ∈ Finset.range n, if x.getLsbD i then α ^ i else 0 := by
  refine Finset.sum_subset (Finset.range_mono h) fun i _ hi => ?_
  rw [Finset.mem_range, not_lt] at hi
  rw [BitVec.getLsbD_of_ge x i hi]
  rfl

theorem val_congr {w' : ℕ} {x : BitVec w} {y : BitVec w'} (h : ∀ i, x.getLsbD i = y.getLsbD i) :
    val α x = val α y := by
  rw [val_eq_sum α (le_max_left w w'), val_eq_sum α (le_max_right w w')]
  exact Finset.sum_congr rfl fun i _ => by rw [h]

@[simp]
theorem val_zero (w : ℕ) : val α (0 : BitVec w) = 0 :=
  Finset.sum_eq_zero fun i _ => by simp

theorem val_ite (c : Bool) (x : BitVec w) :
    val α (if c then x else 0) = if c then val α x else 0 := by
  cases c
  · exact val_zero α w
  · rfl

theorem val_bitsOf (w : ℕ) (f : ℕ → Bool) :
    val α (Bits.bitsOf w f) = ∑ i ∈ Finset.range w, if f i then α ^ i else 0 := by
  refine Finset.sum_congr rfl fun i hi => ?_
  rw [Bits.getLsbD_bitsOf_of_lt (Finset.mem_range.mp hi)]

variable {i : ℕ}

theorem val_one_shiftLeft (h : i < w) : val α (1#w <<< i) = α ^ i := by
  have hbit : ∀ k ∈ Finset.range w, k ≠ i →
      (if (1#w <<< i).getLsbD k then α ^ k else 0) = 0 := by
    intro k hk hne
    have hzero : (1#w <<< i).getLsbD k = false := by
      grind
    rw [hzero]
    rfl
  rw [val, Finset.sum_eq_single i hbit fun hi => absurd (Finset.mem_range.mpr h) hi,
    BitVec.getLsbD_shiftLeft]
  simp [h, Nat.zero_lt_of_lt h]

theorem val_halves {m : ℕ} (x : BitVec (n + m)) :
    val α x = val α (x.extractLsb' n m) * α ^ n + val α (x.extractLsb' 0 n) := by
  rw [val, Finset.sum_range_add, val, Finset.sum_mul, add_comm]
  congr 1
  · refine Finset.sum_congr rfl fun i hi => ?_
    rw [Finset.mem_range] at hi
    rw [BitVec.getLsbD_extractLsb', decide_eq_true hi, Bool.true_and, ite_mul, zero_mul, pow_add,
      mul_comm (α ^ n)]
  · refine Finset.sum_congr rfl fun i hi => ?_
    rw [Finset.mem_range] at hi
    rw [BitVec.getLsbD_extractLsb', decide_eq_true hi, Bool.true_and, Nat.zero_add]

theorem getLsbD_setWidth_shiftLeft (h : n + i ≤ w) (x : BitVec n) (k : ℕ) :
    (x.setWidth w <<< i).getLsbD (i + k) = x.getLsbD k := by
  by_cases hk : k < n
  · simp [show i + k < w by omega]
  · simp [BitVec.getLsbD_of_ge x k (by omega)]

theorem val_shiftLeft (h : n + i ≤ w) (x : BitVec n) :
    val α (x.setWidth w <<< i) = val α x * α ^ i := by
  have hlow : ∀ k ∈ Finset.range i,
      (if (x.setWidth w <<< i).getLsbD k then α ^ k else 0) = 0 := by
    intro k hk
    rw [Finset.mem_range] at hk
    rw [BitVec.getLsbD_shiftLeft, decide_eq_true hk]
    simp
  calc val α (x.setWidth w <<< i)
      = ∑ k ∈ Finset.range w, if x.getLsbD k then α ^ (i + k) else 0 := by
        rw [val_eq_sum α (Nat.le_add_left w i), Finset.sum_range_add, Finset.sum_eq_zero hlow,
          zero_add]
        exact Finset.sum_congr rfl fun k _ => by rw [getLsbD_setWidth_shiftLeft h]
    _ = val α x * α ^ i := by
        rw [val_eq_sum α (le_of_add_le_left h), Finset.sum_mul]
        exact Finset.sum_congr rfl fun k _ => by rw [ite_mul, zero_mul, pow_add, mul_comm (α ^ i)]

variable [Algebra (ZMod 2) R]

/-- **Addition.** -/
theorem val_xor (x y : BitVec w) : val α (x ^^^ y) = val α x + val α y := by
  rw [val, val, val, ← Finset.sum_add_distrib]
  refine Finset.sum_congr rfl fun i _ => ?_
  rw [BitVec.getLsbD_xor]
  cases x.getLsbD i <;> cases y.getLsbD i <;> simp [ZModModule.add_self]

theorem val_xorSum (n : ℕ) (f : ℕ → BitVec w) :
    val α (xorSum n f) = ∑ i ∈ Finset.range n, val α (f i) := by
  induction n with
  | zero => exact val_zero α w
  | succ n ih => rw [xorSum_succ, val_xor, ih, Finset.sum_range_succ]

/-- **Multiplication.** The carry-less product with room for all its coefficients. -/
theorem val_clmul (h : n + n ≤ w) (x y : BitVec n) : val α (clmul w x y) = val α x * val α y := by
  have hy : val α y = ∑ i ∈ Finset.range n, if y.getLsbD i then α ^ i else 0 := rfl
  rw [clmul, val_xorSum, hy, Finset.mul_sum]
  refine Finset.sum_congr rfl fun i hi => ?_
  rw [Finset.mem_range] at hi
  rw [val_ite, val_shiftLeft α (by omega), mul_ite, mul_zero]

end Values

/-! ### Degrees -/

variable {w n : ℕ}

theorem getLsbD_xorSum {i : ℕ} {f : ℕ → BitVec w} (h : ∀ k < n, (f k).getLsbD i = false) :
    (xorSum n f).getLsbD i = false := by
  induction n with
  | zero => simp
  | succ n ih =>
    rw [xorSum_succ, BitVec.getLsbD_xor, ih fun k hk => h k (by omega), h n (by omega)]
    rfl

theorem getLsbD_clmul_of_le {a b i : ℕ} {x y : BitVec n} (hx : ∀ j, a ≤ j → x.getLsbD j = false)
    (hy : ∀ j, b ≤ j → y.getLsbD j = false) (hi : a + b ≤ i + 1) :
    (clmul w x y).getLsbD i = false := by
  refine getLsbD_xorSum fun k _ => ?_
  by_cases hk : k < b
  · rw [Bits.getLsbD_ite_zero, BitVec.getLsbD_shiftLeft, BitVec.getLsbD_setWidth,
      hx (i - k) (by omega)]
    simp
  · rw [hy k (by omega)]
    simp

/-! ### The field -/

/-- The modulus `X ^ w + m`. -/
noncomputable def modulus {w : ℕ} (m : BitVec w) : (ZMod 2)[X] := X ^ w + val X m

/-- **The binary field**: polynomials modulo `X ^ w + m`. -/
abbrev GF {w : ℕ} (m : BitVec w) : Type := AdjoinRoot (modulus m)

/-- The element of a word, of whatever width. -/
noncomputable def elem {w n : ℕ} (m : BitVec w) (x : BitVec n) : GF m :=
  val (AdjoinRoot.root (modulus m)) x

theorem elem_xor (m : BitVec w) (x y : BitVec n) : elem m (x ^^^ y) = elem m x + elem m y :=
  val_xor _ x y

@[simp]
theorem elem_zero (m : BitVec w) (n : ℕ) : elem m 0#n = 0 :=
  val_zero _ n

theorem elem_eq_mk (m : BitVec w) (x : BitVec n) :
    elem m x = AdjoinRoot.mk (modulus m) (val X x) := by
  rw [elem, val, val, map_sum]
  refine Finset.sum_congr rfl fun i _ => ?_
  rw [apply_ite (AdjoinRoot.mk (modulus m)), map_pow, AdjoinRoot.mk_X, map_zero]

/-- **The residue of `X`** satisfies the modulus. -/
theorem root_pow (m : BitVec w) : AdjoinRoot.root (modulus m) ^ w = elem m m := by
  have hsum : AdjoinRoot.root (modulus m) ^ w + elem m m = 0 := by
    rw [elem_eq_mk, ← AdjoinRoot.mk_X, ← map_pow]
    exact AdjoinRoot.mk_self
  rwa [← ZModModule.sub_eq_add, sub_eq_zero] at hsum

theorem elem_one (m : BitVec w) (hn : 0 < n) : elem m 1#n = 1 := by
  have h := val_one_shiftLeft (AdjoinRoot.root (modulus m)) hn
  rwa [BitVec.shiftLeft_zero, pow_zero] at h

theorem coeff_val_X (x : BitVec w) (i : ℕ) :
    (val X x : (ZMod 2)[X]).coeff i = if x.getLsbD i then 1 else 0 := by
  rw [val_eq_sum X (le_max_left w (i + 1)), finsetSum_coeff,
    Finset.sum_eq_single_of_mem i (Finset.mem_range.mpr (by omega))]
  · rw [apply_ite (fun p : (ZMod 2)[X] => p.coeff i), coeff_X_pow_self, coeff_zero]
  · intro k _ hk
    rw [apply_ite (fun p : (ZMod 2)[X] => p.coeff i), coeff_X_pow, coeff_zero, if_neg hk.symm,
      ite_self]

theorem degree_val_X_lt (x : BitVec w) : (val X x : (ZMod 2)[X]).degree < w := by
  rw [degree_lt_iff_coeff_zero]
  intro i hi
  rw [coeff_val_X, BitVec.getLsbD_of_ge x i hi]
  rfl

theorem degree_modulus (m : BitVec w) : (modulus m).degree = w := by
  rw [modulus, degree_add_eq_left_of_degree_lt, degree_X_pow]
  rw [degree_X_pow]
  exact degree_val_X_lt m

theorem monic_modulus (m : BitVec w) : (modulus m).Monic :=
  monic_X_pow_add (degree_val_X_lt m)

/-- **A word is the remainder** of every polynomial that has its residue. -/
theorem val_X_eq_modByMonic {m x : BitVec w} {p : (ZMod 2)[X]}
    (h : elem m x = AdjoinRoot.mk (modulus m) p) : val X x = p %ₘ modulus m := by
  have hself : val X x %ₘ modulus m = val X x :=
    (modByMonic_eq_self_iff (monic_modulus m)).mpr
      ((degree_val_X_lt x).trans_eq (degree_modulus m).symm)
  rw [elem_eq_mk, AdjoinRoot.mk_eq_mk] at h
  rw [← hself, modByMonic_eq_of_dvd_sub (monic_modulus m) h]

/-- **Words of the width of the field** are its elements: no two of them are equal modulo a
polynomial of that degree. -/
theorem elem_injective (m : BitVec w) : Function.Injective (elem m : BitVec w → GF m) := by
  intro x y h
  rw [elem_eq_mk, elem_eq_mk, AdjoinRoot.mk_eq_mk] at h
  have hzero : (val X x - val X y : (ZMod 2)[X]) = 0 := by
    refine eq_zero_of_dvd_of_degree_lt h ?_
    rw [degree_modulus]
    exact (degree_sub_le _ _).trans_lt (max_lt (degree_val_X_lt x) (degree_val_X_lt y))
  refine BitVec.eq_of_getLsbD_eq fun i _ => ?_
  have hcoeff := congrArg (fun p : (ZMod 2)[X] => p.coeff i) (sub_eq_zero.mp hzero)
  simp only [coeff_val_X] at hcoeff
  cases hx : x.getLsbD i <;> cases hy : y.getLsbD i <;> simp_all

/-! ### Irreducible moduli -/

theorem root_eq_elem (m : BitVec w) (hn : 1 < n) :
    AdjoinRoot.root (modulus m) = elem m (1#n <<< 1) := by
  rw [elem, val_one_shiftLeft _ hn, pow_one]

theorem not_dvd_of_isUnit {m : BitVec w} {g p : (ZMod 2)[X]} (hg : Irreducible g)
    (hdvd : g ∣ modulus m) (hp : IsUnit (AdjoinRoot.mk (modulus m) p)) : ¬g ∣ p := by
  intro hgp
  obtain ⟨b, hb⟩ := isUnit_iff_exists_inv.mp hp
  obtain ⟨u, rfl⟩ := AdjoinRoot.mk_surjective b
  rw [← map_mul, ← map_one (AdjoinRoot.mk (modulus m)), AdjoinRoot.mk_eq_mk] at hb
  have hone : g ∣ 1 := by
    rw [← sub_sub_cancel (p * u) 1]
    exact dvd_sub (hgp.mul_right u) (hdvd.trans hb)
  exact hg.not_isUnit (isUnit_of_dvd_one hone)

/-- **Rabin's test.** An irreducible factor of degree `d` divides `X ^ 2 ^ n - X` exactly if `d`
divides `n`: the first condition lets `d` divide the degree `w`, and the second one excludes its
proper divisors. -/
theorem irreducible_modulus {m : BitVec w} (hw : 0 < w)
    (hfrob : AdjoinRoot.root (modulus m) ^ 2 ^ w = AdjoinRoot.root (modulus m))
    (hunit : ∀ r, r.Prime → r ∣ w →
      IsUnit (AdjoinRoot.root (modulus m) ^ 2 ^ (w / r) - AdjoinRoot.root (modulus m))) :
    Irreducible (modulus m) := by
  have hdeg : (modulus m).natDegree = w := natDegree_eq_of_degree_eq_some (degree_modulus m)
  have hne : modulus m ≠ 1 := by
    intro hone
    rw [hone, natDegree_one] at hdeg
    exact hw.ne hdeg
  have hmk : ∀ n, AdjoinRoot.mk (modulus m) (X ^ 2 ^ n - X) =
      AdjoinRoot.root (modulus m) ^ 2 ^ n - AdjoinRoot.root (modulus m) := by
    intro n
    rw [map_sub, map_pow, AdjoinRoot.mk_X]
  rw [(monic_modulus m).irreducible_iff_lt_natDegree_lt hne, hdeg]
  intro q hq hrange hdvd
  rw [Finset.mem_Ioc] at hrange
  obtain ⟨g, hg, hgq⟩ := exists_irreducible_of_natDegree_pos hrange.1
  have hle : g.natDegree ≤ w / 2 := (natDegree_le_of_dvd hgq hq.ne_zero).trans hrange.2
  have hdvdX : ∀ n, g.natDegree ∣ n ↔ g ∣ X ^ 2 ^ n - X := by
    intro n
    rw [hg.natDegree_dvd_iff_dvd_X_pow_card_pow_sub_X, Nat.card_zmod]
  have hw_dvd : g.natDegree ∣ w := by
    rw [hdvdX]
    refine (hgq.trans hdvd).trans ?_
    rw [← AdjoinRoot.mk_eq_zero, hmk, hfrob, sub_self]
  -- the degree is a proper divisor of `w`, so it divides `w / r` for some prime `r`
  obtain ⟨c, hc⟩ := hw_dvd
  have hc1 : c ≠ 1 := by
    rintro rfl
    omega
  obtain ⟨r, hr, e, rfl⟩ := Nat.exists_prime_and_dvd hc1
  have hquot : w / r = g.natDegree * e := by
    rw [hc, Nat.mul_left_comm, Nat.mul_div_cancel_left _ hr.pos]
  have hrw : r ∣ w := ⟨g.natDegree * e, by rw [hc, Nat.mul_left_comm]⟩
  refine not_dvd_of_isUnit hg (hgq.trans hdvd) ?_ ((hdvdX (w / r)).mp ⟨e, hquot⟩)
  exact hunit r hr hrw

/-- **Fermat's theorem** in the binary field. -/
theorem pow_two_pow_sub_one {m : BitVec w} (h : Irreducible (modulus m)) {a : GF m} (ha : a ≠ 0) :
    a ^ (2 ^ w - 1) = 1 := by
  have : Fact (Irreducible (modulus m)) := ⟨h⟩
  have : Module.Finite (ZMod 2) (GF m) := (monic_modulus m).finite_adjoinRoot
  have : Finite (GF m) := Module.finite_of_finite (ZMod 2)
  have := Fintype.ofFinite (GF m)
  have hcard : Fintype.card (GF m) = 2 ^ w := by
    have hrank : Module.finrank (ZMod 2) (GF m) = (modulus m).natDegree :=
      finrank_quotient_span_eq_natDegree
    rw [Module.card_eq_pow_finrank (K := ZMod 2), ZMod.card, hrank,
      natDegree_eq_of_degree_eq_some (degree_modulus m)]
  rw [← hcard]
  exact FiniteField.pow_card_sub_one_eq_one a ha

end BinaryField
