import Yacl.Lib.Interpolation
import Yacl.Lib.Loop
import Yacl.Math.MpInt

/-!
# Polynomials over a prime field

The model of `yacl/crypto/experimental/vss/poly.cc`: the evaluation of a polynomial by Horner's
method, and Lagrange interpolation. The integers are `MPInt`s, and every step is reduced modulo a
prime.

The loop of Horner's method counts down an `int` that starts at `coeffs_.size() - 2`. From
`2 ^ 31 + 2` coefficients on, the `int` is not this number, and the value is not that of the
polynomial.
-/

open Loop Interpolation Yacl.Math

namespace Yacl.Crypto

/-- `Polynomial`. -/
structure Polynomial where
  coeffs : List MPInt
  modulus : MPInt

namespace Polynomial

/-- `CreatePolynomial`, with the numbers that `RandomLtN` draws. -/
def createPolynomial (self : Polynomial) (random : ℕ → MPInt) (zeroValue : MPInt) (threshold : ℕ) :
    Except Exception Polynomial := do
  let coefficients ← vecSet (List.replicate threshold 0) 0 zeroValue
  let coefficients ← forLoop (threshold - 1) (fun k coefficients =>
    vecSet coefficients (k + 1) (random (k + 1))) coefficients
  pure { self with coeffs := coefficients }

/-- `int i = coeffs_.size() - 2`, the first index of the loop in `EvaluatePolynomial`. -/
def startIndex (size : ℕ) : ℤ := (BitVec.ofNat 32 (size + (2 ^ 64 - 2))).toInt

/-- Step `k` of the loop of `EvaluatePolynomial`, at the index `i = startIndex - k`. -/
def hornerStep (self : Polynomial) (x : MPInt) (k : ℕ) (tmp : MPInt) : Except Exception MPInt := do
  let i := startIndex self.coeffs.length - k
  let tmp ← mulMod x tmp self.modulus
  addMod tmp (← vecGet self.coeffs i.toNat) self.modulus

/-- `EvaluatePolynomial`. -/
def evaluatePolynomial (self : Polynomial) (x : MPInt) : Except Exception MPInt := do
  enforce (self.coeffs ≠ []) "!coeffs_.empty()" "coeffs_ is empty!!!"
  let tmp := self.coeffs.getLastD 0
  forLoop (startIndex self.coeffs.length + 1).toNat (self.hornerStep x) tmp

/-- The body of the loop of `LagrangeComputeAtX`, on `num` and `denum`. -/
def lagrangeStep (xs : List MPInt) (index : ℕ) (targetX modulus : MPInt) (j : ℕ)
    (s : MPInt × MPInt) : Except Exception (MPInt × MPInt) :=
  if j ≠ index then do
    let xjSubTargetx ← subMod (← vecGet xs j) targetX modulus
    let num ← mulMod s.1 xjSubTargetx modulus
    let xjSubXi ← subMod (← vecGet xs j) (← vecGet xs index) modulus
    let denum ← mulMod s.2 xjSubXi modulus
    pure (num, denum)
  else pure s

/-- `LagrangeComputeAtX`. -/
def lagrangeComputeAtX (xs : List MPInt) (index : ℕ) (y targetX modulus : MPInt) :
    Except Exception MPInt := do
  enforce (index < xs.length) "index < xs.size()" "X index should be < xs.size()"
  let (num, denum) ← forLoop xs.length (lagrangeStep xs index targetX modulus) (1, 1)
  let denumInv ← invertMod denum modulus
  mulMod (← mulMod y num modulus) denumInv modulus

/-- The body of the loop of `LagrangeInterpolation`. -/
def lagrangeAdd (xs ys : List MPInt) (targetX modulus : MPInt) (i : ℕ) (acc : MPInt) :
    Except Exception MPInt := do
  let t ← lagrangeComputeAtX xs i (← vecGet ys i) targetX modulus
  addMod t acc modulus

/-- `LagrangeInterpolation` at any point. -/
def lagrangeInterpolation (xs ys : List MPInt) (targetX modulus : MPInt) :
    Except Exception MPInt := do
  enforce (xs.length = ys.length) "xs.size() == ys.size()" ""
  forLoop xs.length (lagrangeAdd xs ys targetX modulus) 0

/-- `LagrangeInterpolation` at zero, with the modulus of the object. -/
def lagrangeInterpolationAtZero (self : Polynomial) (xs ys : List MPInt) : Except Exception MPInt :=
  lagrangeInterpolation xs ys 0 self.modulus

end Polynomial

/-! ### The values of a polynomial -/

/-- The value at `x` of the polynomial with integer coefficients. -/
def polyValue (coeffs : List MPInt) (x : MPInt) : MPInt :=
  ∑ i ∈ Finset.range coeffs.length, coeffs.getD i 0 * x ^ i

theorem emod_eq_of_cast {m : ℕ} {x y : ℤ} (h : (x : ZMod m) = (y : ZMod m)) : x % m = y % m :=
  (ZMod.intCast_eq_intCast_iff' x y m).mp h

section Values

variable {m : ℕ} [hprime : Fact m.Prime]

/-- The polynomial over the field. -/
noncomputable def polyMod (m : ℕ) [Fact m.Prime] (coeffs : List MPInt) :=
  ofCoeffs (coeffs.map (Int.cast : ℤ → ZMod m))

theorem degree_polyMod_lt (coeffs : List MPInt) : (polyMod m coeffs).degree < coeffs.length := by
  have := degree_ofCoeffs_lt (coeffs.map (Int.cast : ℤ → ZMod m))
  rwa [List.length_map] at this

@[simp]
theorem eval_polyMod_nil (x : ZMod m) : (polyMod m []).eval x = 0 := eval_ofCoeffs_nil x

@[simp]
theorem eval_polyMod_cons (c : MPInt) (coeffs : List MPInt) (x : ZMod m) :
    (polyMod m (c :: coeffs)).eval x = c + x * (polyMod m coeffs).eval x :=
  eval_ofCoeffs_cons _ _ x

theorem eval_polyMod (coeffs : List MPInt) (x : ZMod m) :
    (polyMod m coeffs).eval x =
      ∑ i ∈ Finset.range coeffs.length, ((coeffs.getD i 0 : ℤ) : ZMod m) * x ^ i := by
  rw [polyMod, eval_ofCoeffs, List.length_map]
  refine Finset.sum_congr rfl fun i _ => ?_
  rw [List.getD_eq_getElem?_getD, List.getD_eq_getElem?_getD, List.getElem?_map]
  cases coeffs[i]? <;> simp

theorem cast_polyValue (coeffs : List MPInt) (x : MPInt) :
    ((polyValue coeffs x : ℤ) : ZMod m) = (polyMod m coeffs).eval (x : ZMod m) := by
  rw [eval_polyMod, polyValue]
  push_cast
  rfl

end Values

namespace Polynomial

/-! ### Creation -/

theorem set_map_range {α : Type} {n i : ℕ} (f : ℕ → α) (a : α) :
    ((List.range n).map f).set i a = (List.range n).map (Function.update f i a) := by
  refine List.ext_getElem (by simp) fun j hj _ => ?_
  rw [List.getElem_set]
  simp [Function.update_apply, eq_comm]

/-- The secret is the constant term, and the other coefficients are random. -/
theorem createPolynomial_eq (self : Polynomial) (random : ℕ → MPInt) (zeroValue : MPInt)
    {threshold : ℕ} (h : 0 < threshold) :
    self.createPolynomial random zeroValue threshold = .ok { self with
      coeffs := (List.range threshold).map fun j => if j = 0 then zeroValue else random j } := by
  have hzero : List.replicate threshold (0 : MPInt) = (List.range threshold).map fun _ => 0 := by
    rw [List.map_const', List.length_range]
  have hloop : forLoop (threshold - 1) (fun k coefficients =>
      (vecSet coefficients (k + 1) (random (k + 1)) : Except Exception _)) _ = .ok _ :=
    forLoop_eq_ok (fun k => (List.range threshold).map fun j =>
      if j = 0 then zeroValue else if j ≤ k then random j else 0) fun k hk => by
      rw [vecSet_of_lt (by simp; omega), set_map_range]
      refine congrArg Except.ok (List.map_congr_left fun j _ => ?_)
      grind
  have hstart : (List.range threshold).map (Function.update (fun _ => 0) 0 zeroValue) =
      (List.range threshold).map fun j =>
        if j = 0 then zeroValue else if j ≤ 0 then random j else 0 := by
    refine List.map_congr_left fun j _ => ?_
    grind
  rw [createPolynomial, hzero, vecSet_of_lt (by simpa), ok_bind, set_map_range, hstart, hloop]
  refine congrArg (fun l => Except.ok { self with coeffs := l })
    (List.map_congr_left fun j hj => ?_)
  rw [List.mem_range] at hj
  rw [if_pos (show j ≤ threshold - 1 by omega)]

/-! ### Evaluation -/

theorem startIndex_of_le {size : ℕ} (hpos : 0 < size) (hle : size ≤ 2 ^ 31 + 1) :
    startIndex size = size - 2 := by
  rw [startIndex, BitVec.toInt_eq_toNat_cond, BitVec.toNat_ofNat]
  split <;> omega

theorem startIndex_neg {size : ℕ} (hle : 2 ^ 31 + 2 ≤ size) (hlt : size < 2 ^ 32 + 2) :
    startIndex size < 0 := by
  rw [startIndex, BitVec.toInt_eq_toNat_cond, BitVec.toNat_ofNat]
  split <;> omega

section Evaluate

variable {m : ℕ} [hprime : Fact m.Prime]

/-- **One step of Horner's method** takes the next coefficient into account. -/
theorem hornerStep_eq {self : Polynomial} (hm : self.modulus = m)
    (hle : self.coeffs.length ≤ 2 ^ 31 + 1) (x : MPInt) {k : ℕ} (hk : k < self.coeffs.length - 1)
    {tmp : MPInt} (htmp : (tmp : ZMod m) =
      (polyMod m (self.coeffs.drop (self.coeffs.length - 1 - k))).eval (x : ZMod m)) :
    ∃ tmp', self.hornerStep x k tmp = .ok tmp' ∧ (tmp' : ZMod m) =
      (polyMod m (self.coeffs.drop (self.coeffs.length - 1 - (k + 1)))).eval (x : ZMod m) := by
  have hstart := startIndex_of_le (by omega) hle
  have hindex : (startIndex self.coeffs.length - k).toNat = self.coeffs.length - 1 - (k + 1) := by
    omega
  have hlt : self.coeffs.length - 1 - (k + 1) < self.coeffs.length := by omega
  have hsucc : self.coeffs.length - 1 - (k + 1) + 1 = self.coeffs.length - 1 - k := by omega
  rw [hornerStep, hindex, vecGet_of_getElem? (List.getElem?_eq_getElem hlt), hm,
    mulMod_eq hprime.out.pos, ok_bind, ok_bind, addMod_eq hprime.out.pos]
  refine ⟨_, rfl, ?_⟩
  rw [List.drop_eq_getElem_cons hlt, eval_polyMod_cons, hsucc, ← htmp, ZMod.intCast_mod,
    Int.cast_add, ZMod.intCast_mod, Int.cast_mul, add_comm]

/-- **Horner's method** computes the value of the polynomial. -/
theorem evaluatePolynomial_eq (self : Polynomial) (hm : self.modulus = m) (hne : self.coeffs ≠ [])
    (hle : self.coeffs.length ≤ 2 ^ 31 + 1) (x : MPInt) :
    ∃ y, self.evaluatePolynomial x = .ok y ∧
      (y : ZMod m) = (polyMod m self.coeffs).eval (x : ZMod m) := by
  have hpos := List.length_pos_iff.mpr hne
  have hcount : (startIndex self.coeffs.length + 1).toNat = self.coeffs.length - 1 := by
    rw [startIndex_of_le hpos hle]
    omega
  have hlast : ((self.coeffs.getLastD 0 : ℤ) : ZMod m) =
      (polyMod m (self.coeffs.drop (self.coeffs.length - 1 - 0))).eval (x : ZMod m) := by
    rw [Nat.sub_zero, List.drop_length_sub_one hne, List.getLastD_eq_getLast?,
      List.getLast?_eq_some_getLast hne]
    simp
  -- After `k` steps the coefficients from `length - 1 - k` on have been used.
  obtain ⟨y, hy, hval⟩ := forLoop_ok (f := self.hornerStep x)
    (fun k tmp => (tmp : ZMod m) =
      (polyMod m (self.coeffs.drop (self.coeffs.length - 1 - k))).eval (x : ZMod m)) hlast
    fun k hk tmp htmp => hornerStep_eq hm hle x hk htmp
  refine ⟨y, ?_, ?_⟩
  · rw [evaluatePolynomial, enforce_bind hne, hcount]
    exact hy
  · rwa [Nat.sub_self, List.drop_zero] at hval

theorem evaluatePolynomial_of_large {self : Polynomial} (hle : 2 ^ 31 + 2 ≤ self.coeffs.length)
    (hlt : self.coeffs.length < 2 ^ 32 + 2) (x : MPInt) :
    self.evaluatePolynomial x = .ok (self.coeffs.getLastD 0) := by
  have hne : self.coeffs ≠ [] := List.length_pos_iff.mp (by omega)
  have hneg := startIndex_neg hle hlt
  rw [evaluatePolynomial, enforce_bind hne,
    show (startIndex self.coeffs.length + 1).toNat = 0 by omega]
  rfl

end Evaluate

/-! ### Interpolation -/

/-- The points in the field. -/
def points (m : ℕ) (xs : List MPInt) (i : ℕ) : ZMod m := (xs.getD i 0 : ℤ)

theorem points_injOn {m : ℕ} (xs : List MPInt) (h : (xs.map (· % (m : ℤ))).Nodup) :
    Set.InjOn (points m xs) (Finset.range xs.length) := by
  intro i hi j hj hij
  rw [Finset.coe_range] at hi hj
  have hget : ∀ k < xs.length, (xs.map (· % (m : ℤ)))[k]? = some (xs.getD k 0 % m) := by
    intro k hk
    rw [List.getElem?_map, List.getD_eq_getElem?_getD, List.getElem?_eq_getElem hk]
    rfl
  refine (List.getElem?_inj (by rwa [List.length_map]) h).mp ?_
  rw [hget i hi, hget j hj, emod_eq_of_cast hij]

section Lagrange

variable {m : ℕ} [hprime : Fact m.Prime] {xs : List MPInt}

/-- The numerator and the denominator when the first `k` points have been used. -/
def Products (m : ℕ) (xs : List MPInt) (index : ℕ) (targetX : MPInt) (k : ℕ) (s : MPInt × MPInt) :
    Prop :=
  (s.1 : ZMod m) = ∏ j ∈ (Finset.range k).erase index, (points m xs j - targetX) ∧
    (s.2 : ZMod m) = ∏ j ∈ (Finset.range k).erase index, (points m xs j - points m xs index)

theorem erase_range_succ_of_ne {k index : ℕ} (h : k ≠ index) :
    (Finset.range (k + 1)).erase index = insert k ((Finset.range k).erase index) := by
  rw [Finset.range_add_one, Finset.erase_insert_of_ne h]

theorem lagrangeStep_eq {index : ℕ} (hindex : index < xs.length) (targetX : MPInt) {k : ℕ}
    (hk : k < xs.length) {s : MPInt × MPInt} (hs : Products m xs index targetX k s) :
    ∃ s', lagrangeStep xs index targetX m k s = .ok s' ∧
      Products m xs index targetX (k + 1) s' := by
  have hpos := hprime.out.pos
  by_cases hne : k = index
  · subst hne
    rw [lagrangeStep, if_neg (not_not_intro rfl)]
    refine ⟨s, rfl, ?_⟩
    rw [Products, Finset.range_add_one, Finset.erase_insert_eq_erase]
    exact hs
  · have hnotMem : k ∉ (Finset.range k).erase index := fun h =>
      absurd (Finset.mem_range.mp (Finset.mem_of_mem_erase h)) (Nat.lt_irrefl k)
    rw [lagrangeStep, if_pos hne, vecGet_getD hk 0, ok_bind, subMod_eq hpos, ok_bind,
      mulMod_eq hpos, ok_bind, ok_bind, vecGet_getD hindex 0, ok_bind, subMod_eq hpos, ok_bind,
      mulMod_eq hpos]
    refine ⟨_, rfl, ?_, ?_⟩
    · rw [erase_range_succ_of_ne hne, Finset.prod_insert hnotMem, ← hs.1, points]
      push_cast [ZMod.intCast_mod]
      ring
    · rw [erase_range_succ_of_ne hne, Finset.prod_insert hnotMem, ← hs.2, points, points]
      push_cast [ZMod.intCast_mod]
      ring

/-- **One term of the interpolation** is the value times the weight of its point. -/
theorem lagrangeComputeAtX_eq (hinj : Set.InjOn (points m xs) (Finset.range xs.length))
    {index : ℕ} (hindex : index < xs.length) (y targetX : MPInt) :
    ∃ t, lagrangeComputeAtX xs index y targetX m = .ok t ∧
      (t : ZMod m) = y * weight (points m xs) xs.length targetX index := by
  obtain ⟨⟨num, denum⟩, hloop, hnum, hdenum⟩ := forLoop_ok
    (s := ((1 : MPInt), (1 : MPInt)))
    (Products m xs index targetX) ⟨by simp, by simp⟩
    fun k hk s hs => lagrangeStep_eq hindex targetX hk hs
  have hne : (denum : ZMod m) ≠ 0 := by
    rw [hdenum, Finset.prod_ne_zero_iff]
    intro j hj
    obtain ⟨hji, hj⟩ := Finset.mem_erase.mp hj
    exact sub_ne_zero.mpr fun h =>
      hji (hinj hj (Finset.mem_coe.mpr (Finset.mem_range.mpr hindex)) h)
  obtain ⟨inv, hinv, hcast⟩ := invertMod_eq hne
  rw [lagrangeComputeAtX, enforce_bind hindex, hloop, ok_bind]
  dsimp only
  rw [hinv, ok_bind, mulMod_eq hprime.out.pos, ok_bind, mulMod_eq hprime.out.pos]
  refine ⟨_, rfl, ?_⟩
  rw [weight, Finset.prod_div_distrib, ← hnum, ← hdenum, ZMod.intCast_mod, Int.cast_mul,
    ZMod.intCast_mod, Int.cast_mul, hcast]
  ring

/-- **Interpolation.** From the values of a polynomial at enough points, the code computes its value
at any point. -/
theorem lagrangeInterpolation_eq (hinj : Set.InjOn (points m xs) (Finset.range xs.length))
    {ys : List MPInt} (hlen : xs.length = ys.length) {coeffs : List MPInt}
    (hdeg : coeffs.length ≤ xs.length)
    (hys : ∀ i < xs.length, ((ys.getD i 0 : ℤ) : ZMod m) =
      (polyMod m coeffs).eval (points m xs i)) (targetX : MPInt) :
    lagrangeInterpolation xs ys targetX m = .ok (polyValue coeffs targetX % m) := by
  have hstep : ∀ k < xs.length, ∀ acc : MPInt, acc = acc % m ∧ (acc : ZMod m) =
      ∑ i ∈ Finset.range k, (polyMod m coeffs).eval (points m xs i) *
        weight (points m xs) xs.length targetX i →
      ∃ acc', lagrangeAdd xs ys targetX m k acc = .ok acc' ∧ acc' = acc' % m ∧ (acc' : ZMod m) =
        ∑ i ∈ Finset.range (k + 1), (polyMod m coeffs).eval (points m xs i) *
          weight (points m xs) xs.length targetX i := by
    rintro k hk acc ⟨-, hacc⟩
    obtain ⟨t, ht, hcast⟩ := lagrangeComputeAtX_eq hinj hk (ys.getD k 0) targetX
    rw [lagrangeAdd, vecGet_getD (hlen ▸ hk) 0, ok_bind, ht, ok_bind, addMod_eq hprime.out.pos]
    refine ⟨_, rfl, (Int.emod_emod_of_dvd _ dvd_rfl).symm, ?_⟩
    rw [ZMod.intCast_mod, Int.cast_add, hcast, hacc, Finset.sum_range_succ, hys k hk, add_comm]
  obtain ⟨acc, hloop, hmod, hacc⟩ := forLoop_ok (s := (0 : MPInt)) _ ⟨by simp, by simp⟩ hstep
  have hdegree : (polyMod m coeffs).degree < xs.length :=
    (degree_polyMod_lt coeffs).trans_le (by exact_mod_cast hdeg)
  rw [sum_eval_mul_weight hdegree hinj, ← cast_polyValue] at hacc
  rw [lagrangeInterpolation, enforce_bind hlen, hloop, hmod, emod_eq_of_cast hacc]

end Lagrange

end Polynomial

end Yacl.Crypto
