import Yacl.Math.MpInt
import Yacl.Math.MpIntBytes

/-!
# Safe primes

The model of `mpx_safe_prime_rand` (`yacl/math/mpint/tommath_ext_features.cc`), which looks for a
prime `p = 2 * q + 1` with `q` prime. A random odd `q` is moved up in steps of two until `q` and `p`
have no small factor; then `p` is tested with Fermat's test to base two, and `q` with the test of
libtommath, which is a parameter. A failed test leads to the next random number; the model takes the
random numbers from a list and does not end if the list does.

**Both numbers are prime** when the function returns (`mpxSafePrimeRand_prime`), if every window of
the sieve has a candidate. For `p` this is Pocklington's criterion (`prime_of_pocklington`), which
needs that three does not divide `p`: the sieve leaves out the numbers `q` of residue one.
-/

open Loop Bytes

namespace Yacl.Math

/-! ### The sieve -/

/-- `small_primes`. -/
def smallPrimes : List ℕ := [3, 5, 7, 11, 13, 17, 19, 23, 29, 31, 37, 41, 43, 47, 53]

/-- `small_prime_prod`. -/
def smallPrimeProd : ℕ := smallPrimes.prod

/-- `is_co_prime`. -/
def isCoPrime (num : ℕ) : Bool :=
  smallPrimes.all fun prime => !(num ≠ prime ∧ num % prime = 0)

/-- `is_prime_candidate`. -/
def isPrimeCandidate (p : ℕ) : Bool := isCoPrime (p % smallPrimeProd)

/-- The variables `q`, `p` and `last_delta`. -/
structure SieveState where
  q : ℕ
  p : ℕ
  lastDelta : ℕ
deriving DecidableEq, Repr

/-- The loop of the sieve from `delta` on, for at most `n` steps; the flag says whether it was left
by `break`. -/
def sieve (originalM : ℕ) : ℕ → ℕ → SieveState → SieveState × Bool
  | 0, _, s => (s, false)
  | n + 1, delta, s =>
    let m := (originalM + delta) % 2 ^ 64
    if m % 3 = 1 then sieve originalM n (delta + 2) s
    else if !isCoPrime m then sieve originalM n (delta + 2) s
    else
      let q := if 0 < delta - s.lastDelta then s.q + (delta - s.lastDelta) else s.q
      let p := 2 * q + 1
      if isPrimeCandidate p then ({ q := q, p := p, lastDelta := delta }, true)
      else sieve originalM n (delta + 2) { q := q, p := p, lastDelta := delta }

/-- The sieve for `q`: `delta` runs through the even numbers below `2 ^ 20`. -/
def sieveWindow (q p : ℕ) : SieveState × Bool :=
  sieve (q % smallPrimeProd) (2 ^ 19) 0 { q := q, p := p, lastDelta := 0 }

/-! ### The search -/

/-- `is_pocklington_criterion_satisfied`. -/
def isPocklingtonCriterionSatisfied (p : ℕ) : Except Exception Bool := do
  mpintEnforceOk (0 < p) "mp_exptmod(&two, &p_minus_one, p, &result)"
  pure (decide (2 ^ (p - 1) % p = 1))

/-- The bytes of one draw after the masks were applied. -/
def maskDraw (qsize : ℕ) (draw : ℕ → Byte) : Except Exception (List Byte) := do
  let bsize := (qsize + 7) >>> 3
  let maskAnd : Byte := if qsize % 8 = 0 then 0xff else 0xff >>> (8 - qsize % 8)
  let maskOrMsbOffset := if qsize % 8 = 1 then 1 else 0
  let maskOrMsb : Byte := 0x80 >>> ((9 - qsize : ℤ) % 8).toNat
  let maskOrLsb : Byte := 3
  let tmp := (List.range bsize).map draw
  let tmp ← vecSet tmp 0 ((← vecGet tmp 0) &&& maskAnd)
  let tmp ← vecSet tmp 0 ((← vecGet tmp 0) ||| 1 <<< ((qsize - 1) % 8))
  -- behind the buffer if `qsize` is one
  let tmp ← vecSet tmp maskOrMsbOffset ((← vecGet tmp maskOrMsbOffset) ||| maskOrMsb)
  vecSet tmp (bsize - 1) ((← vecGet tmp (bsize - 1)) ||| maskOrLsb)

/-- The number of one draw, which is read into the variable `q`. -/
def drawNumber (qsize : ℕ) (draw : ℕ → Byte) (q : ℕ) : Except Exception ℕ := do
  let tmp ← maskDraw qsize draw
  MpInt.mag <$> mpxFromMagBytes (MpInt.ofInt q) tmp .big

/-- The loop of `mpx_safe_prime_rand`, for the test `isPrime` of libtommath: the variables at the
return. -/
def safePrimeLoop (isPrime : ℕ → ℕ → Bool) (t qsize : ℕ) :
    List (ℕ → Byte) → SieveState → Except Exception SieveState
  | [], _ => throw .nonTermination
  | draw :: draws, s => do
    let q ← drawNumber qsize draw s.q
    let s := (sieveWindow q s.p).1
    let pocklington ← isPocklingtonCriterionSatisfied s.p
    if !pocklington then safePrimeLoop isPrime t qsize draws s
    else if isPrime s.q t then pure s
    else safePrimeLoop isPrime t qsize draws s

/-- `mpx_safe_prime_rand`, where `p` is the value of the variable before the call. The result is the
state at the return. -/
def mpxSafePrimeRand (isPrime : ℕ → ℕ → Bool) (draws : List (ℕ → Byte)) (p t psize : ℕ) :
    Except Exception SieveState := do
  enforce (1 < psize ∧ 0 < t) "psize > 1 && t > 0" s!"with psize={psize}, t={t}"
  safePrimeLoop isPrime t (psize - 1) draws { q := 0, p := p, lastDelta := 0 }

/-! ### Pocklington's criterion -/

/-- **Pocklington's criterion** for `2 * q + 1` and the base two. -/
theorem prime_of_pocklington {q : ℕ} (hq : q.Prime) (h3 : ¬3 ∣ 2 * q + 1)
    (hpow : 2 ^ (2 * q) % (2 * q + 1) = 1) : (2 * q + 1).Prime := by
  by_contra hnot
  have hr : (2 * q + 1).minFac.Prime := Nat.minFac_prime (by have := hq.pos; omega)
  have hdvd : (2 * q + 1).minFac ∣ 2 * q + 1 := Nat.minFac_dvd _
  have hsq : (2 * q + 1).minFac ^ 2 ≤ 2 * q + 1 := Nat.minFac_sq_le_self (by omega) hnot
  generalize (2 * q + 1).minFac = r at hr hdvd hsq
  have : Fact r.Prime := ⟨hr⟩
  -- the order of two modulo the factor divides `2 * q` but not `2`, so `q` divides it
  have hone : (2 : ZMod r) ^ (2 * q) = 1 := by
    have hmod : 2 ^ (2 * q) ≡ 1 [MOD 2 * q + 1] := by
      rw [Nat.ModEq, hpow, Nat.mod_eq_of_lt (by have := hq.pos; omega)]
    have hcast := (ZMod.natCast_eq_natCast_iff _ _ _).mpr (hmod.of_dvd hdvd)
    exact_mod_cast hcast
  have hne : ¬orderOf (2 : ZMod r) ∣ 2 := by
    intro hord
    have hfour : (2 : ZMod r) ^ 2 = 1 := orderOf_dvd_iff_pow_eq_one.mp hord
    have hthree : ((3 : ℕ) : ZMod r) = 0 := by
      push_cast
      linear_combination hfour
    rw [ZMod.natCast_eq_zero_iff, Nat.prime_dvd_prime_iff_eq hr Nat.prime_three] at hthree
    exact h3 (hthree ▸ hdvd)
  have hqdvd : q ∣ orderOf (2 : ZMod r) := by
    by_contra hcop
    have hcoprime : Nat.Coprime (orderOf (2 : ZMod r)) q :=
      ((Nat.Prime.coprime_iff_not_dvd hq).mpr hcop).symm
    exact hne (hcoprime.dvd_of_dvd_mul_right (orderOf_dvd_of_pow_eq_one hone))
  have htwo : (2 : ZMod r) ≠ 0 := by
    intro hzero
    rw [hzero, zero_pow (by have := hq.pos; omega)] at hone
    exact zero_ne_one hone
  have hle : q ≤ r - 1 :=
    Nat.le_of_dvd (by have := hr.two_le; omega) (hqdvd.trans (ZMod.orderOf_dvd_card_sub_one htwo))
  have hsquare : (q + 1) ^ 2 ≤ r ^ 2 := Nat.pow_le_pow_left (by have := hr.two_le; omega) 2
  have := hq.pos
  nlinarith

/-- The number of a draw is the value of the masked bytes, whatever `q` held before. -/
theorem drawNumber_eq {qsize : ℕ} {draw : ℕ → Byte} (tmp : List Byte)
    (h : maskDraw qsize draw = .ok tmp) (hmax : 8 * tmp.length ≤ mpDigitBit * mpMaxDigitCount)
    (q : ℕ) :
    drawNumber qsize draw q = .ok (bytesValue .big tmp.length tmp) := by
  obtain ⟨a, hread, -, hvalue⟩ := mpxFromMagBytes_spec (MpInt.valid_ofInt q).toShaped tmp .big
    hmax
  rw [drawNumber, h, ok_bind, hread, Except.map_ok]
  congr 1
  rw [← MpInt.natAbs_toInt, hvalue, Int.natAbs_natCast]

/-! ### The numbers that the sieve leaves -/

/-- The sieve for `q` would stop at `delta`. -/
def IsCandidate (q delta : ℕ) : Prop :=
  (q % smallPrimeProd + delta) % 3 ≠ 1 ∧ isCoPrime (q % smallPrimeProd + delta) = true ∧
    isPrimeCandidate (2 * (q + delta) + 1) = true

instance (q delta : ℕ) : Decidable (IsCandidate q delta) :=
  inferInstanceAs (Decidable (_ ∧ _ ∧ _))

theorem sieve_sum_lt (q : ℕ) {delta : ℕ} (hdelta : delta < 2 ^ 20) :
    q % smallPrimeProd + delta < 2 ^ 64 := by
  have hmod : q % smallPrimeProd < smallPrimeProd := Nat.mod_lt _ (by decide)
  have hprod : smallPrimeProd + 2 ^ 20 < 2 ^ 64 := by decide
  omega

/-- **The sieve** keeps `q` in step with `delta` and leaves the loop at a candidate, if there is
one. -/
theorem sieve_spec (q0 n delta : ℕ) {s : SieveState} (hq : s.q = q0 + s.lastDelta)
    (hlast : s.lastDelta ≤ delta) (hdelta : delta + 2 * n ≤ 2 ^ 20)
    (hcand : ∃ k < n, IsCandidate q0 (delta + 2 * k)) :
    ∃ d, IsCandidate q0 d ∧
      sieve (q0 % smallPrimeProd) n delta s = (⟨q0 + d, 2 * (q0 + d) + 1, d⟩, true) := by
  induction n generalizing delta s with
  | zero =>
    omega
  | succ n ih =>
    rw [sieve, Nat.mod_eq_of_lt (sieve_sum_lt q0 (by omega))]
    -- a step that does not stop leaves the candidate to the steps after it
    have hlater : ¬IsCandidate q0 delta → ∃ k < n, IsCandidate q0 (delta + 2 + 2 * k) := by
      intro hnot
      obtain ⟨k, hk, hcand⟩ := hcand
      cases k with
      | zero => exact absurd hcand hnot
      | succ k =>
        rw [Nat.mul_succ, ← Nat.add_assoc, Nat.add_right_comm] at hcand
        exact ⟨k, by omega, hcand⟩
    have hmove : (if 0 < delta - s.lastDelta then s.q + (delta - s.lastDelta) else s.q) =
        q0 + delta := by
      split <;> omega
    rw [hmove]
    by_cases h3 : (q0 % smallPrimeProd + delta) % 3 = 1
    · rw [if_pos h3]
      exact ih _ hq (by omega) (by omega) (hlater fun h => h.1 h3)
    rw [if_neg h3]
    by_cases hco : isCoPrime (q0 % smallPrimeProd + delta) = true
    · rw [hco]
      by_cases hp : isPrimeCandidate (2 * (q0 + delta) + 1) = true
      · rw [if_pos hp]
        exact ⟨delta, ⟨h3, hco, hp⟩, rfl⟩
      · rw [if_neg hp]
        exact ih _ rfl (by dsimp only; omega) (by omega) (hlater fun h => hp h.2.2)
    · rw [Bool.not_eq_true] at hco
      rw [hco]
      exact ih _ hq (by omega) (by omega)
        (hlater fun h => Bool.false_ne_true (hco.symm.trans h.2.1))

/-- Three does not divide `2 * q + 1` for the numbers that the sieve leaves. -/
theorem IsCandidate.not_three_dvd {q delta : ℕ} (h : IsCandidate q delta) :
    ¬3 ∣ 2 * (q + delta) + 1 := by
  have hmod : q % smallPrimeProd % 3 = q % 3 := Nat.mod_mod_of_dvd q (by decide)
  have := h.1
  omega

/-- Every window of the sieve has a candidate. -/
def HasCandidates (qsize : ℕ) (draws : List (ℕ → Byte)) : Prop :=
  ∀ draw ∈ draws, ∀ q q', drawNumber qsize draw q = .ok q' → ∃ k < 2 ^ 19, IsCandidate q' (2 * k)

theorem safePrimeLoop_prime {isPrime : ℕ → ℕ → Bool} {t qsize : ℕ} {draws : List (ℕ → Byte)}
    (hexact : ∀ q, isPrime q t = true → q.Prime) (hcand : HasCandidates qsize draws)
    {s s' : SieveState} (h : safePrimeLoop isPrime t qsize draws s = .ok s') :
    s'.p = 2 * s'.q + 1 ∧ s'.q.Prime ∧ s'.p.Prime := by
  induction draws generalizing s with
  | nil => contradiction
  | cons draw draws ih =>
    have hrest : HasCandidates qsize draws := fun d hd => hcand d (List.mem_cons_of_mem _ hd)
    obtain ⟨q, hq, h⟩ := of_bind_eq_ok h
    obtain ⟨k, hk, hk'⟩ := hcand draw List.mem_cons_self s.q q hq
    obtain ⟨d, hd, hsieve⟩ := sieve_spec q (2 ^ 19) 0 (s := ⟨q, s.p, 0⟩) rfl (Nat.le_refl 0)
      (by norm_num) ⟨k, hk, by rwa [Nat.zero_add]⟩
    rw [sieveWindow, hsieve] at h
    obtain ⟨fermat, hfermat, h⟩ := of_bind_eq_ok h
    split at h
    · exact ih hrest h
    · next htrue =>
      split at h
      · next hprime =>
        rw [← Except.ok.inj h]
        have hpow : 2 ^ (2 * (q + d)) % (2 * (q + d) + 1) = 1 := by
          have hdec := Except.ok.inj hfermat
          simp only [Bool.not_eq_eq_eq_not, Bool.not_true, Bool.not_eq_false] at htrue
          rw [htrue] at hdec
          simpa using hdec
        have hqp := hexact _ hprime
        exact ⟨rfl, hqp, prime_of_pocklington hqp hd.not_three_dvd hpow⟩
      · exact ih hrest h

/-- **Safe primes.** If the function returns, `p` is `2 * q + 1` for the number `q` that was tested,
and both are prime. -/
theorem mpxSafePrimeRand_prime (isPrime : ℕ → ℕ → Bool) (draws : List (ℕ → Byte))
    (p t psize : ℕ) (hexact : ∀ q, isPrime q t = true → q.Prime)
    (hcand : HasCandidates (psize - 1) draws) (s : SieveState)
    (h : mpxSafePrimeRand isPrime draws p t psize = .ok s) :
    s.p = 2 * s.q + 1 ∧ s.q.Prime ∧ s.p.Prime := by
  obtain ⟨-, hloop⟩ := of_enforce_bind h
  exact safePrimeLoop_prime hexact hcand hloop

/-- Five bits and a draw of zeros: the window starts at `15`, the candidate is `23`, and the
function returns `47`. -/
theorem mpxSafePrimeRand_prime_five :
    mpxSafePrimeRand (fun q _ => q == 23) [fun _ => 0] 0 1 5 = .ok ⟨23, 47, 8⟩ ∧
      (47 : ℕ).Prime := by
  have hrun : mpxSafePrimeRand (fun q _ => q == 23) [fun _ => 0] 0 1 5 = .ok ⟨23, 47, 8⟩ := by
    decide +kernel
  have hcand : HasCandidates (5 - 1) [fun _ => 0] := by
    intro draw hdraw q q' hq
    obtain rfl := List.mem_singleton.1 hdraw
    have hval : drawNumber (5 - 1) (fun _ => 0) q = .ok 15 :=
      drawNumber_eq [15] rfl (by decide) q
    obtain rfl := Except.ok.inj (hval.symm.trans hq)
    exact ⟨4, by norm_num, by decide +kernel⟩
  have h := mpxSafePrimeRand_prime (fun q _ => q == 23) [fun _ => 0] 0 1 5
    (fun q hq => by rw [beq_iff_eq.1 hq]; norm_num) hcand _ hrun
  exact ⟨hrun, h.2.2⟩

end Yacl.Math
