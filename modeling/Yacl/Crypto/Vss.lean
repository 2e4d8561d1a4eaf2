import Yacl.Crypto.EcGroup
import Yacl.Crypto.Poly

/-!
# Verifiable secret sharing

The model of `yacl/crypto/experimental/vss/vss.cc`. A secret is the constant term of a polynomial,
and the shares are points on it. As many shares as there are coefficients determine the polynomial,
and with it the secret. The commitments to the coefficients let everybody check a share.
-/

open Loop Interpolation Yacl.Math

namespace Yacl.Crypto

/-- `VerifiableSecretSharing::Share`. -/
structure Share where
  x : MPInt
  y : MPInt

/-- `CreateCommits`. -/
def createCommits {P : Type} [AddCommGroup P] (eccGroup : EcGroup P) (coefficients : List MPInt) :
    List P :=
  coefficients.map eccGroup.mulBase

/-- `VerifiableSecretSharing`, with the check of its constructor. -/
structure VerifiableSecretSharing where
  total : ℕ
  threshold : ℕ
  prime : MPInt
  total_ge : total ≥ threshold

namespace VerifiableSecretSharing

/-- The constructor. -/
def make (total threshold : ℕ) (prime : MPInt) : Except Exception VerifiableSecretSharing := do
  let h ← enforceProof (total ≥ threshold) "total >= threshold" ""
  pure ⟨total, threshold, prime, h.down⟩

/-- The body of the loop of `CreateShare`, with the points that `RandomLtN` draws. -/
def createShareStep (poly : Polynomial) (randomX : ℕ → MPInt) (i : ℕ) (shares : List Share) :
    Except Exception (List Share) := do
  let y ← poly.evaluatePolynomial (randomX i)
  pure (shares ++ [⟨randomX i, y⟩])

/-- `CreateShare`; the results are the shares and `poly` after the call. -/
def createShare (self : VerifiableSecretSharing) (random randomX : ℕ → MPInt) (secret : MPInt)
    (poly : Polynomial) : Except Exception (List Share × Polynomial) := do
  let poly ← poly.createPolynomial random secret self.threshold
  let shares ← forLoop self.total (createShareStep poly randomX) []
  pure (shares, poly)

/-- `CreateShareWithCommits`; the results are the shares, the commitments and `poly` after the
call. -/
def createShareWithCommits {P : Type} [AddCommGroup P] (self : VerifiableSecretSharing)
    (random randomX : ℕ → MPInt) (secret : MPInt) (eccGroup : EcGroup P) (poly : Polynomial) :
    Except Exception (List Share × List P × Polynomial) := do
  let poly ← poly.createPolynomial random secret self.threshold
  let shares ← forLoop self.total (createShareStep poly randomX) []
  pure (shares, createCommits eccGroup poly.coeffs, poly)

/-- `RecoverSecret`. -/
def recoverSecret (self : VerifiableSecretSharing) (shares : List Share) :
    Except Exception MPInt := do
  enforce (shares.length ≥ self.threshold) "shares.size() >= threshold_" ""
  let xs := (shares.take self.threshold).map Share.x
  let ys := (shares.take self.threshold).map Share.y
  Polynomial.lagrangeInterpolationAtZero ⟨[], self.prime⟩ xs ys

end VerifiableSecretSharing

section Commits

variable {P : Type} [AddCommGroup P] [DecidableEq P] (E : EcGroup P)

/-- The body of the loop of `VerifyCommits`, on `x_pow_i` and `gy`; its index starts at one. -/
def verifyStep (share : Share) (commits : List P) (prime : MPInt) (k : ℕ) (s : MPInt × P) :
    Except Exception (MPInt × P) := do
  let xPowI ← mulMod s.1 share.x prime
  pure (xPowI, E.add s.2 (E.mul (← vecGet commits (k + 1)) xPowI))

/-- `VerifyCommits`. -/
def verifyCommits (share : Share) (commits : List P) (prime : MPInt) : Except Exception Bool := do
  let expectedGy := E.mulBase share.y
  let gy ← vecGet commits 0
  let (_, gy) ← forLoop (commits.length - 1) (verifyStep E share commits prime) (1, gy)
  pure (E.pointEqual expectedGy gy)

end Commits

/-! ### Recovering the secret -/

/-- Shares at points that are distinct and not zero modulo a number. -/
structure GoodPoints (m : ℕ) (shares : List Share) : Prop where
  nodup : (shares.map fun s => s.x % (m : ℤ)).Nodup
  ne_zero : ∀ s ∈ shares, s.x % m ≠ 0

theorem GoodPoints.take {m : ℕ} {shares : List Share} (h : GoodPoints m shares) (n : ℕ) :
    GoodPoints m (shares.take n) where
  nodup := by
    rw [List.map_take]
    exact h.nodup.sublist (List.take_sublist _ _)
  ne_zero s hs := h.ne_zero s (List.mem_of_mem_take hs)

/-- **Sharing is correct** for a threshold: for every prime, every polynomial with at most so many
coefficients and at least so many shares at good points, the interpolation of the shares at any
point gives the value of the polynomial, and `RecoverSecret` gives its constant term, both reduced
modulo the prime. -/
def SharingCorrect (threshold : ℕ) : Prop :=
  ∀ (m : ℕ), m.Prime → ∀ (coeffs : List MPInt), coeffs.length ≤ threshold →
    ∀ shares : List Share, threshold ≤ shares.length → GoodPoints m shares →
      (∀ s ∈ shares, (⟨coeffs, m⟩ : Polynomial).evaluatePolynomial s.x = .ok s.y) →
      (∀ targetX, Polynomial.lagrangeInterpolation (shares.map Share.x) (shares.map Share.y)
        targetX m = .ok (polyValue coeffs targetX % m)) ∧
      ∀ self : VerifiableSecretSharing, self.threshold = threshold → self.prime = m →
        self.recoverSecret shares = .ok (coeffs.getD 0 0 % m)

section Recover

variable {m : ℕ} [hprime : Fact m.Prime]

theorem lagrangeInterpolation_shares {shares : List Share} (hgood : GoodPoints m shares)
    {coeffs : List MPInt} (hdeg : coeffs.length ≤ shares.length)
    (hval : ∀ s ∈ shares, (s.y : ZMod m) = (polyMod m coeffs).eval (s.x : ZMod m))
    (targetX : MPInt) :
    Polynomial.lagrangeInterpolation (shares.map Share.x) (shares.map Share.y) targetX m =
      .ok (polyValue coeffs targetX % m) := by
  have hinj : ((shares.map Share.x).map (· % (m : ℤ))).Nodup := by
    rw [List.map_map]
    exact hgood.nodup
  refine Polynomial.lagrangeInterpolation_eq (Polynomial.points_injOn _ hinj) (by simp) (by simpa)
    (fun i hi => ?_) _
  rw [List.length_map] at hi
  rw [Polynomial.points, List.getD_eq_getElem?_getD, List.getD_eq_getElem?_getD,
    List.getElem?_map, List.getElem?_map, List.getElem?_eq_getElem hi]
  exact hval _ (List.getElem_mem hi)

theorem polyValue_zero (coeffs : List MPInt) : polyValue coeffs 0 = coeffs.getD 0 0 := by
  obtain _ | ⟨c, cs⟩ := coeffs
  · rfl
  · rw [polyValue, List.length_cons, Finset.sum_range_succ']
    simp

theorem recoverSecret_eq (self : VerifiableSecretSharing) (hm : self.prime = m)
    {shares : List Share} (hsize : self.threshold ≤ shares.length) (hgood : GoodPoints m shares)
    (coeffs : List MPInt) (hdeg : coeffs.length ≤ self.threshold)
    (hval : ∀ s ∈ shares, (s.y : ZMod m) = (polyMod m coeffs).eval (s.x : ZMod m)) :
    self.recoverSecret shares = .ok (coeffs.getD 0 0 % m) := by
  rw [VerifiableSecretSharing.recoverSecret, enforce_bind hsize,
    Polynomial.lagrangeInterpolationAtZero, hm,
    lagrangeInterpolation_shares (hgood.take self.threshold)
      (by rwa [List.length_take, min_eq_left hsize])
      (fun s hs => hval s (List.mem_of_mem_take hs)),
    polyValue_zero]

theorem cast_y_eq_eval {coeffs : List MPInt} (hle : coeffs.length ≤ 2 ^ 31 + 1) {s : Share}
    (h : (⟨coeffs, m⟩ : Polynomial).evaluatePolynomial s.x = .ok s.y) :
    (s.y : ZMod m) = (polyMod m coeffs).eval (s.x : ZMod m) := by
  have hne : coeffs ≠ [] := (of_enforce_bind h).1
  obtain ⟨y, hy, hval⟩ := Polynomial.evaluatePolynomial_eq ⟨coeffs, m⟩ rfl hne hle s.x
  rw [h] at hy
  rw [Except.ok.inj hy, hval]

/-- **Sharing.** The shares are values of one polynomial with the secret as its constant term. -/
theorem createShare_eq (self : VerifiableSecretSharing) (hpos : 0 < self.threshold)
    (hle : self.threshold ≤ 2 ^ 31 + 1) (random randomX : ℕ → MPInt) (secret : MPInt)
    (poly : Polynomial) (hm : poly.modulus = m) :
    ∃ shares coeffs, self.createShare random randomX secret poly = .ok (shares, ⟨coeffs, m⟩) ∧
      shares.map Share.x = (List.range self.total).map randomX ∧
      coeffs.length = self.threshold ∧ coeffs.getD 0 0 = secret ∧
      ∀ s ∈ shares, (⟨coeffs, m⟩ : Polynomial).evaluatePolynomial s.x = .ok s.y := by
  obtain ⟨coeffs, hcoeffs⟩ : ∃ coeffs, (List.range self.threshold).map
      (fun j => if j = 0 then secret else random j) = coeffs := ⟨_, rfl⟩
  have hlen : coeffs.length = self.threshold := by rw [← hcoeffs]; simp
  have hsecret : coeffs.getD 0 0 = secret := by
    rw [← hcoeffs, List.getD_eq_getElem?_getD, List.getElem?_map, List.getElem?_range hpos]
    rfl
  obtain ⟨shares, hloop, hx, hy⟩ := forLoop_ok (s := [])
    (f := VerifiableSecretSharing.createShareStep ⟨coeffs, m⟩ randomX)
    (fun k shares => shares.map Share.x = (List.range k).map randomX ∧
      ∀ s ∈ shares, (⟨coeffs, m⟩ : Polynomial).evaluatePolynomial s.x = .ok s.y)
    ⟨rfl, by simp⟩ fun k _ shares h => by
      obtain ⟨y, hy, -⟩ := Polynomial.evaluatePolynomial_eq ⟨coeffs, m⟩ rfl
        (List.length_pos_iff.mp (hlen ▸ hpos)) (hlen.trans_le hle) (randomX k)
      rw [VerifiableSecretSharing.createShareStep, hy]
      refine ⟨_, rfl, ?_, ?_⟩
      · rw [List.map_append, h.1, List.range_succ, List.map_append]
        rfl
      · intro s hs
        rcases List.mem_append.mp hs with hs | hs
        · exact h.2 s hs
        · rw [List.mem_singleton.mp hs, hy]
  refine ⟨shares, coeffs, ?_, hx, hlen, hsecret, hy⟩
  rw [VerifiableSecretSharing.createShare, Polynomial.createPolynomial_eq _ _ _ hpos, ok_bind,
    hcoeffs, hm, hloop]
  rfl

end Recover

theorem sharingCorrect_of_le {threshold : ℕ} (h : threshold ≤ 2 ^ 31 + 1) :
    SharingCorrect threshold := by
  intro m hprime coeffs hdeg shares hsize hgood heval
  have : Fact m.Prime := ⟨hprime⟩
  have hval : ∀ s ∈ shares, (s.y : ZMod m) = (polyMod m coeffs).eval (s.x : ZMod m) :=
    fun s hs => cast_y_eq_eval (hdeg.trans h) (heval s hs)
  refine ⟨lagrangeInterpolation_shares hgood (hdeg.trans hsize) hval, ?_⟩
  rintro self rfl hm
  exact recoverSecret_eq self hm hsize hgood coeffs hdeg hval

/-- **Any threshold of the shares recovers the secret**, if their points are good. -/
theorem recoverSecret_createShare {m : ℕ} (hprime : m.Prime) (self : VerifiableSecretSharing)
    (hm : self.prime = m) (hpos : 0 < self.threshold) (hle : self.threshold ≤ 2 ^ 31 + 1)
    (random randomX : ℕ → MPInt) (secret : MPInt) :
    ∃ shares poly, self.createShare random randomX secret ⟨[], m⟩ = .ok (shares, poly) ∧
      shares.map Share.x = (List.range self.total).map randomX ∧
      ∀ subset ⊆ shares, self.threshold ≤ subset.length → GoodPoints m subset →
        self.recoverSecret subset = .ok (secret % m) := by
  have : Fact m.Prime := ⟨hprime⟩
  obtain ⟨shares, coeffs, hshare, hx, hlen, hsecret, heval⟩ :=
    createShare_eq self hpos hle random randomX secret ⟨[], m⟩ rfl
  refine ⟨shares, _, hshare, hx, fun subset hsub hsize hgood => ?_⟩
  rw [← hsecret]
  exact (sharingCorrect_of_le hle m hprime coeffs hlen.le subset hsize hgood
    fun s hs => heval s (hsub hs)).2 self rfl hm

/-- Shares of `5 + 4 * X` modulo seven. -/
theorem recoverSecret_createShare_seven :
    let self : VerifiableSecretSharing := ⟨3, 2, 7, Nat.le_succ 2⟩
    ∃ shares poly, self.createShare (fun _ => 4) (· + 1) 5 ⟨[], 7⟩ = .ok (shares, poly) ∧
      shares.map Share.x = [1, 2, 3] ∧ ∀ subset ⊆ shares, 2 ≤ subset.length → GoodPoints 7 subset →
        self.recoverSecret subset = .ok (5 % 7) :=
  recoverSecret_createShare (by decide) _ rfl (by decide) (by decide) _ _ 5

theorem getLastD_cons_replicate {n : ℕ} (hn : n ≠ 0) :
    ((1 : MPInt) :: List.replicate n 0).getLastD 0 = 0 := by
  obtain ⟨n, rfl⟩ := Nat.exists_eq_succ_of_ne_zero hn
  rw [List.getLastD_eq_getLast?, List.getLast?_cons, List.getLast?_replicate]
  simp

theorem goodPoints_range {m t : ℕ} (h : t < m) :
    GoodPoints m ((List.range t).map fun i => (⟨(i + 1 : ℕ), 0⟩ : Share)) := by
  have hmod : ∀ i < t, (((i + 1 : ℕ) : ℤ) % (m : ℤ)) = (i + 1 : ℕ) := fun i hi =>
    Int.emod_eq_of_lt (by omega) (by omega)
  constructor
  · rw [List.map_map]
    refine List.Nodup.map_on ?_ List.nodup_range
    intro i hi j hj hij
    rw [List.mem_range] at hi hj
    rw [Function.comp_apply, Function.comp_apply, hmod i hi, hmod j hj] at hij
    omega
  · intro s hs
    obtain ⟨i, hi, rfl⟩ := List.mem_map.mp hs
    rw [List.mem_range] at hi
    rw [hmod i hi]
    exact_mod_cast Nat.succ_ne_zero i

/-- **Too many coefficients.** The polynomial with the constant term one and only zeros after it has
the shares of the zero polynomial. -/
theorem not_sharingCorrect_of_length {n threshold : ℕ} (hle : 2 ^ 31 + 1 ≤ n)
    (hlt : n < 2 ^ 32 + 1) (hn : n + 1 ≤ threshold) : ¬SharingCorrect threshold := by
  intro h
  obtain ⟨m, hm, hprime⟩ := Nat.exists_infinite_primes (threshold + 2)
  have : Fact m.Prime := ⟨hprime⟩
  have hlen : ((1 : MPInt) :: List.replicate n 0).length = n + 1 := by
    rw [List.length_cons, List.length_replicate]
  have hgood := goodPoints_range (show threshold < m by omega)
  have hsize : threshold ≤ ((List.range threshold).map fun i =>
      (⟨(i + 1 : ℕ), 0⟩ : Share)).length := by rw [List.length_map, List.length_range]
  have heval : ∀ s ∈ (List.range threshold).map (fun i => (⟨(i + 1 : ℕ), 0⟩ : Share)),
      (⟨1 :: List.replicate n 0, m⟩ : Polynomial).evaluatePolynomial s.x = .ok s.y := by
    intro s hs
    obtain ⟨i, -, rfl⟩ := List.mem_map.mp hs
    rw [Polynomial.evaluatePolynomial_of_large (by rw [hlen]; omega) (by rw [hlen]; omega),
      getLastD_cons_replicate (by omega)]
  have hone := (h m hprime _ (hlen.trans_le hn) _ hsize hgood heval).2
    ⟨threshold, threshold, m, le_rfl⟩ rfl rfl
  have hzero := recoverSecret_eq ⟨threshold, threshold, m, le_rfl⟩ rfl hsize hgood []
    (Nat.zero_le _) (by simp)
  rw [hone, List.getD_cons_zero, Int.emod_eq_of_lt (by omega) (by omega)] at hzero
  exact absurd (Except.ok.inj hzero) (by simp)

/-- **Shamir sharing.** Sharing is correct for a threshold if and only if Horner's method can count
the coefficients with an `int`. -/
theorem sharingCorrect_iff (threshold : ℕ) : SharingCorrect threshold ↔ threshold ≤ 2 ^ 31 + 1 := by
  refine ⟨fun h => ?_, sharingCorrect_of_le⟩
  by_contra hlarge
  exact not_sharingCorrect_of_length le_rfl (by omega) (by omega) h

theorem not_sharingCorrect_large : ¬SharingCorrect (2 ^ 31 + 2) :=
  not_sharingCorrect_of_length le_rfl (by omega) le_rfl

/-! ### Verifying a share -/

section Verify

variable {P : Type} [AddCommGroup P] (E : EcGroup P)

/-- The power of `x` and the point when the commitments up to number `k` have been used. -/
def VerifiedUpTo (coeffs : List MPInt) (x : MPInt) (k : ℕ) (s : MPInt × P) : Prop :=
  (s.1 : ZMod E.order) = (x : ZMod E.order) ^ k ∧
    s.2 = (∑ i ∈ Finset.range (k + 1), ((coeffs.getD i 0 : ℤ) : ZMod E.order) *
      (x : ZMod E.order) ^ i) • E.generator

theorem vecGet_createCommits {coeffs : List MPInt} {i : ℕ} (hi : i < coeffs.length) :
    vecGet (createCommits E coeffs) i =
      .ok (((coeffs.getD i 0 : ℤ) : ZMod E.order) • E.generator) := by
  refine vecGet_of_getElem? ?_
  rw [createCommits, List.getElem?_map, List.getD_eq_getElem?_getD, List.getElem?_eq_getElem hi,
    Option.map_some, Option.getD_some, E.mulBase_eq_smul]

theorem verifyStep_eq {coeffs : List MPInt} (share : Share) {k : ℕ} (hk : k < coeffs.length - 1)
    {s : MPInt × P} (hs : VerifiedUpTo E coeffs share.x k s) :
    ∃ s', verifyStep E share (createCommits E coeffs) E.order k s = .ok s' ∧
      VerifiedUpTo E coeffs share.x (k + 1) s' := by
  rw [verifyStep, mulMod_eq E.order_pos, vecGet_createCommits E (by omega)]
  refine ⟨_, rfl, ?_, ?_⟩
  · rw [ZMod.intCast_mod, Int.cast_mul, hs.1, pow_succ]
  · rw [E.mul_eq_smul, EcGroup.add, hs.2, ZMod.intCast_mod, Int.cast_mul, hs.1, smul_smul,
      ← add_smul, Finset.sum_range_succ _ (k + 1), pow_succ, mul_comm (_ * _)]

/-- **Feldman's verification is exact.** For a group of prime order as the modulus, `VerifyCommits`
accepts a share against the commitments to a polynomial if and only if the share is a point on
it. -/
theorem verifyCommits_iff [DecidableEq P] {coeffs : List MPInt} (hne : coeffs ≠ [])
    (share : Share) :
    ∃ b, verifyCommits E share (createCommits E coeffs) E.order = .ok b ∧
      (b = true ↔ share.y ≡ polyValue coeffs share.x [ZMOD E.order]) := by
  have hpos := List.length_pos_iff.mpr hne
  obtain ⟨⟨xPow, gy⟩, hloop, -, hgy⟩ := forLoop_ok
    (s := (1, ((coeffs.getD 0 0 : ℤ) : ZMod E.order) • E.generator))
    (VerifiedUpTo E coeffs share.x) ⟨by simp, by simp⟩ fun k hk s hs => verifyStep_eq E share hk hs
  have hsum : gy = ((polyValue coeffs share.x : ℤ) : ZMod E.order) • E.generator := by
    rw [show gy = _ from hgy, Nat.sub_add_cancel hpos, cast_polyValue, eval_polyMod]
  refine ⟨E.pointEqual (E.mulBase share.y) gy, ?_, ?_⟩
  · rw [verifyCommits, vecGet_createCommits E hpos, ok_bind,
      show (createCommits E coeffs).length = coeffs.length from List.length_map _, hloop]
    rfl
  · rw [EcGroup.pointEqual, decide_eq_true_iff, hsum, E.mulBase_eq_smul, E.smul_generator_inj,
      ZMod.intCast_eq_intCast_iff]

end Verify

/-- For `f = 3 + 2 * X`, the share `(4, 1)` is accepted and `(4, 2)` is not. -/
theorem verifyCommits_iff_five :
    (∃ b, verifyCommits ecGroupFive ⟨4, 1⟩ (createCommits ecGroupFive [3, 2]) 5 = .ok b ∧
      (b = true ↔ 1 ≡ polyValue [3, 2] 4 [ZMOD 5])) ∧
    ∃ b, verifyCommits ecGroupFive ⟨4, 2⟩ (createCommits ecGroupFive [3, 2]) 5 = .ok b ∧
      (b = true ↔ 2 ≡ polyValue [3, 2] 4 [ZMOD 5]) :=
  ⟨verifyCommits_iff ecGroupFive (by decide) ⟨4, 1⟩,
    verifyCommits_iff ecGroupFive (by decide) ⟨4, 2⟩⟩

end Yacl.Crypto
