import Yacl.Base.Span
import Yacl.Crypto.EcGroup
import Yacl.Crypto.Poly

/-!
# Threshold proxy re-encryption

The model of `keys.cc`, `capsule.cc`, `hash.cc` and `kdf.cc` in `yacl/crypto/experimental/tpre`. A
capsule `(E, V)` encapsulates the key that is derived from `a * (E + V)`, where `a` is the secret
key of the delegating party. The re-encryption keys of the proxies are the values of a polynomial
with the constant term `a / d`; a proxy multiplies the capsule by its value. The other party, who
can compute `d`, interpolates the polynomial at zero **in the exponent**.

The programs use the hash functions only through `TpreHash`, and the results hold for all of them;
`tpreHash` are those of the source, made from SM3.
-/

open Loop Interpolation Yacl.Math Bytes

namespace Yacl.Crypto

/-! ### Hash functions -/

/-- `CipherHash` on bytes, for the order of a group, and `KDF`. -/
structure TpreHash where
  cipherHash : List Byte → MPInt
  kdf : List Byte → ℕ → List Byte

/-- The four bytes `C` of the counter. -/
def kdfCounter (counter : ℕ) : List Byte :=
  [BitVec.ofNat 8 (counter >>> 24), BitVec.ofNat 8 (counter >>> 16), BitVec.ofNat 8 (counter >>> 8),
    BitVec.ofNat 8 counter]

/-- The hash functions of the source. The modulus `order - 1` is not zero for a prime order. -/
def tpreHash (sm3 : List Byte → List Byte) (order : ℕ) : TpreHash where
  cipherHash input :=
    let hashValue0 := sm3 input
    let hashValue1 := sm3 hashValue0
    (fromMagBytes (hashValue0 ++ hashValue1) + 1) % (order - 1)
  kdf Z keyLen :=
    let index := (keyLen + 32) / 32
    (List.range index).flatMap fun i =>
      (sm3 (Z ++ kdfCounter (i + 1))).take (if i = index - 1 then keyLen % 32 else 32)

/-- `ToString()`, the decimal digits of a number as bytes. -/
def mpintToString (x : MPInt) : List Byte := (toString x).toList.map fun c => BitVec.ofNat 8 c.toNat

section Programs

variable {P : Type} [AddCommGroup P] (E : EcGroup P) (H : TpreHash)

/-- `CipherHash` on points. -/
def cipherHashPoints (inputs : List P) : MPInt := H.cipherHash (inputs.flatMap E.serializePointTo)

/-! ### Keys -/

/-- `Keys::PublicKey`. -/
structure PublicKey (P : Type) where
  g : P
  y : P

/-- `Keys::PrivateKey`. -/
structure PrivateKey where
  x : MPInt

/-- `Keys::KFrag`. -/
structure KFrag (P : Type) where
  id : MPInt
  rk : MPInt
  XA : P
  U : P
  U1 : P
  z1 : MPInt
  z2 : MPInt

/-- `GenerateKeyPair`, with the number that it draws. -/
def generateKeyPair (x : MPInt) : PublicKey P × PrivateKey := (⟨E.generator, E.mulBase x⟩, ⟨x⟩)

/-- The numbers that `GenerateReKey` draws. -/
structure ReKeyRandom where
  xA : MPInt
  /-- The coefficients after the first one. -/
  f : ℕ → MPInt
  /-- `r_tmp_0`. -/
  r : MPInt
  y : ℕ → MPInt
  id : ℕ → MPInt

/-- `s_x[i]`: the point at which the polynomial is evaluated for an identity number. -/
def evaluationPoint (D id : MPInt) : MPInt := H.cipherHash (mpintToString id ++ mpintToString D)

/-- The body of the innermost loop of `GenerateReKey`, whose index starts at one. -/
def reKeyStep (coefficients : List MPInt) (sx : MPInt) (k : ℕ) (rkTmp : MPInt) :
    Except Exception MPInt := do
  let sxExpJ ← powMod sx (k + 1) E.order
  let coeffMulSxExpJ ← mulMod (← vecGet coefficients (k + 1)) sxExpJ E.order
  addMod rkTmp coeffMulSxExpJ E.order

/-- The fragment with number `i`. -/
def generateKFrag (random : ReKeyRandom) (skA : PrivateKey) (pkA pkB : PublicKey P) (t : ℤ)
    (coefficients : List MPInt) (D : MPInt) (XA : P) (i : ℕ) : Except Exception (KFrag P) := do
  let U := E.mulBase random.r
  let id := random.id i
  let sx := evaluationPoint H D id
  let Y := E.mulBase (random.y i)
  let rk ← forLoop (t - 1).toNat (reKeyStep E coefficients sx) (← vecGet coefficients 0)
  let U1 := E.mul U rk
  let z1 := H.cipherHash (E.serializePoint Y ++ mpintToString id ++ E.serializePoint pkA.y ++
    E.serializePoint pkB.y ++ E.serializePoint U1 ++ E.serializePoint XA)
  let xMulZ1 ← mulMod skA.x z1 E.order
  let z2 ← subMod (random.y i) xMulZ1 E.order
  pure ⟨id, rk, XA, U, U1, z1, z2⟩

/-- `GenerateReKey`. -/
def generateReKey (random : ReKeyRandom) (skA : PrivateKey) (pkA pkB : PublicKey P) (N t : ℤ) :
    Except Exception (List (KFrag P)) := do
  let XA := E.mulBase random.xA
  let d := cipherHashPoints E H [XA, pkB.y, E.mul pkB.y random.xA]
  let dInv ← invertMod d E.order
  let coefficient0 ← mulMod skA.x dInv E.order
  let coefficients := coefficient0 :: (List.range (t - 1).toNat).map fun k => random.f (k + 1)
  let D := cipherHashPoints E H [pkA.y, pkB.y, E.mul pkB.y skA.x]
  (List.range N.toNat).mapM (generateKFrag E H random skA pkA pkB t coefficients D XA)

/-! ### Capsules -/

/-- `Capsule::CapsuleStruct`. -/
structure CapsuleStruct (P : Type) where
  E : P
  V : P
  s : MPInt

/-- `Capsule::CFrag`. -/
structure CFrag (P : Type) where
  E1 : P
  V1 : P
  id : MPInt
  XA : P

/-- `EnCapsulate`, with the numbers that it draws. -/
def enCapsulate (r u : MPInt) (delegatingPublicKey : PublicKey P) :
    Except Exception (CapsuleStruct P × List Byte) := do
  let capE := E.mulBase r
  let capV := E.mulBase u
  let s ← addMod u (← mulMod r (cipherHashPoints E H [capE, capV]) E.order) E.order
  let kPoint := E.mul delegatingPublicKey.y (← addMod u r E.order)
  pure (⟨capE, capV, s⟩, H.kdf (E.serializePoint kPoint) 16)

/-- `DeCapsulate`. -/
def deCapsulate (privateKey : PrivateKey) (capsule : CapsuleStruct P) : List Byte :=
  let kPoint := E.mul (E.add capsule.E capsule.V) privateKey.x
  H.kdf (E.serializePoint kPoint) 16

/-- `CheckCapsule`: the capsule and the result of the comparison. -/
def checkCapsule [DecidableEq P] (capsule : CapsuleStruct P) : CapsuleStruct P × Bool :=
  let tmp0 := E.mulBase capsule.s
  let hev := cipherHashPoints E H [capsule.E, capsule.V]
  let eExpHev := E.mul capsule.E hev
  let tmp1 := E.add capsule.V eExpHev
  (capsule, E.pointEqual tmp0 tmp1)

/-- `ReEncapsulate`. -/
def reEncapsulate [DecidableEq P] (capsule : CapsuleStruct P) (kfrag : KFrag P) :
    Except Exception (CFrag P) := do
  let result := checkCapsule E H capsule
  enforce (result.2 = true) "capsule_check_result.second == 1"
    "check_result: The capsule is damaged or has problems "
  pure ⟨E.mul result.1.E kfrag.rk, E.mul result.1.V kfrag.rk, kfrag.id, kfrag.XA⟩

/-- The body of the inner loop for `lambda_i`. -/
def lambdaStep (S : List MPInt) (i j : ℕ) (lambda : MPInt) : Except Exception MPInt :=
  if i ≠ j then do
    let sxjSubSxi ← subMod (← vecGet S j) (← vecGet S i) E.order
    let sxjSubSxiInv ← invertMod sxjSubSxi E.order
    let sxjSubSxiInvMulSxj ← mulMod sxjSubSxiInv (← vecGet S j) E.order
    mulMod lambda sxjSubSxiInvMulSxj E.order
  else pure lambda

/-- The body of the loop for `E_prime` and `V_prime`, whose index starts at one. -/
def primeStep (cfrags : List (CFrag P)) (lambdas : List MPInt) (k : ℕ) (s : P × P) :
    Except Exception (P × P) := do
  let cfrag ← vecGet cfrags (k + 1)
  let lambda ← vecGet lambdas (k + 1)
  pure (E.add s.1 (E.mul cfrag.E1 lambda), E.add s.2 (E.mul cfrag.V1 lambda))

/-- `DeCapsulateFrags`. -/
def deCapsulateFrags (skB : PrivateKey) (pkA pkB : PublicKey P) (cfrags : List (CFrag P)) :
    Except Exception (List Byte) := do
  let D := cipherHashPoints E H [pkA.y, pkB.y, E.mul pkA.y skB.x]
  let S := cfrags.map fun cfrag => evaluationPoint H D cfrag.id
  let lambdas ← (List.range cfrags.length).mapM fun i => forLoop cfrags.length (lambdaStep E S i) 1
  let cfrag0 ← vecGet cfrags 0
  let lambda0 ← vecGet lambdas 0
  let (ePrime, vPrime) ← forLoop (cfrags.length - 1) (primeStep E cfrags lambdas)
    (E.mul cfrag0.E1 lambda0, E.mul cfrag0.V1 lambda0)
  let d := cipherHashPoints E H [cfrag0.XA, pkB.y, E.mul cfrag0.XA skB.x]
  pure (H.kdf (E.serializePoint (E.mul (E.add ePrime vPrime) d)) 16)

end Programs

/-! ### Capsules -/

section Capsules

variable {P : Type} [AddCommGroup P] (E : EcGroup P) (H : TpreHash)

/-- The key of a capsule for the secret key `a`. -/
def capsuleKey (a : ZMod E.order) (capE capV : P) : List Byte :=
  H.kdf (E.serializePoint (a • (capE + capV))) 16

theorem deCapsulate_eq (a : MPInt) (capsule : CapsuleStruct P) :
    deCapsulate E H ⟨a⟩ capsule = capsuleKey E H a capsule.E capsule.V := by
  rw [deCapsulate, E.mul_eq_smul, EcGroup.add, capsuleKey]

/-- A capsule as `EnCapsulate` makes it. -/
def IsHonest (capsule : CapsuleStruct P) : Prop :=
  ∃ r u : MPInt, capsule.E = E.mulBase r ∧ capsule.V = E.mulBase u ∧
    (capsule.s : ZMod E.order) = u + r * cipherHashPoints E H [capsule.E, capsule.V]

/-- **Encapsulation** gives an honest capsule and its key. -/
theorem enCapsulate_eq (r u a : MPInt) :
    ∃ capsule, enCapsulate E H r u (generateKeyPair E a).1 =
      .ok (capsule, capsuleKey E H a capsule.E capsule.V) ∧ IsHonest E H capsule := by
  rw [enCapsulate, mulMod_eq E.order_pos, addMod_eq E.order_pos, ok_bind, addMod_eq E.order_pos]
  refine ⟨_, congrArg (fun k => Except.ok (_, H.kdf (E.serializePoint k) 16)) ?_,
    r, u, rfl, rfl, ?_⟩
  · rw [generateKeyPair]
    rw [E.mul_eq_smul, E.mulBase_eq_smul, E.mulBase_eq_smul, E.mulBase_eq_smul, ZMod.intCast_mod,
      Int.cast_add, ← add_smul, smul_smul, smul_smul]
    ring_nf
  · push_cast [ZMod.intCast_mod]
    rfl

variable [DecidableEq P] {E H}

/-- **Honest capsules pass the check.** -/
theorem IsHonest.checkCapsule_eq {capsule : CapsuleStruct P} (h : IsHonest E H capsule) :
    checkCapsule E H capsule = (capsule, true) := by
  obtain ⟨r, u, hE, hV, hs⟩ := h
  refine congrArg (Prod.mk capsule) ?_
  rw [EcGroup.pointEqual, decide_eq_true_iff, E.mulBase_eq_smul, hs, E.mul_eq_smul, add_smul,
    mul_comm, mul_smul, hV, E.mulBase_eq_smul]
  congr 2
  rw [hE, E.mulBase_eq_smul]

/-- **Re-encryption** never rejects an honest capsule. -/
theorem IsHonest.reEncapsulate_eq {capsule : CapsuleStruct P} (h : IsHonest E H capsule)
    (kfrag : KFrag P) :
    reEncapsulate E H capsule kfrag =
      .ok ⟨E.mul capsule.E kfrag.rk, E.mul capsule.V kfrag.rk, kfrag.id, kfrag.XA⟩ := by
  rw [reEncapsulate, h.checkCapsule_eq]
  rfl

end Capsules

/-! ### Re-encryption keys -/

section ReKey

variable {P : Type} [AddCommGroup P] {E : EcGroup P} (H : TpreHash)

theorem reKeyStep_eq {coefficients : List MPInt} (sx : MPInt) {k : ℕ}
    (hk : k + 1 < coefficients.length) {rkTmp : MPInt} (hrk : (rkTmp : ZMod E.order) =
      ∑ j ∈ Finset.range (k + 1), ((coefficients.getD j 0 : ℤ) : ZMod E.order) * sx ^ j) :
    ∃ rk, reKeyStep E coefficients sx k rkTmp = .ok rk ∧ (rk : ZMod E.order) =
      ∑ j ∈ Finset.range (k + 1 + 1), ((coefficients.getD j 0 : ℤ) : ZMod E.order) * sx ^ j := by
  rw [reKeyStep, powMod_eq E.order_pos, ok_bind, vecGet_getD hk 0, ok_bind,
    mulMod_eq E.order_pos, ok_bind, addMod_eq E.order_pos]
  refine ⟨_, rfl, ?_⟩
  rw [Finset.sum_range_succ, ← hrk]
  push_cast [ZMod.intCast_mod]
  rfl

/-- **The key of a proxy** is the value of the polynomial. -/
theorem generateKFrag_eq (random : ReKeyRandom) (skA : PrivateKey) (pkA pkB : PublicKey P) {t : ℤ}
    (ht : 1 ≤ t) {coefficients : List MPInt} (hlen : coefficients.length = t.toNat) (D : MPInt)
    (XA : P) (i : ℕ) :
    ∃ kfrag, generateKFrag E H random skA pkA pkB t coefficients D XA i = .ok kfrag ∧
      kfrag.XA = XA ∧ (kfrag.rk : ZMod E.order) =
        (polyMod E.order coefficients).eval (evaluationPoint H D kfrag.id : ZMod E.order) := by
  obtain ⟨rk, hrk, hval⟩ := forLoop_ok (n := (t - 1).toNat) (s := coefficients.getD 0 0)
    (fun k rk => (rk : ZMod E.order) = ∑ j ∈ Finset.range (k + 1),
      ((coefficients.getD j 0 : ℤ) : ZMod E.order) *
        (evaluationPoint H D (random.id i) : ZMod E.order) ^ j)
    (by simp) fun k hk rk hrk => reKeyStep_eq _ (by omega) hrk
  rw [generateKFrag, vecGet_getD (by omega) 0, ok_bind, hrk, ok_bind]
  dsimp only
  rw [mulMod_eq E.order_pos, ok_bind, subMod_eq E.order_pos]
  refine ⟨_, rfl, rfl, ?_⟩
  rw [hval, eval_polyMod, hlen, show (t - 1).toNat + 1 = t.toNat by omega]

/-- **Re-encryption keys.** The keys are the values of one polynomial with the constant term
`a / d`, at the evaluation points of the proxies. -/
theorem generateReKey_eq (random : ReKeyRandom) (skA : PrivateKey) (pkA pkB : PublicKey P)
    (N : ℤ) {t : ℤ} (ht : 1 ≤ t) {d D : MPInt}
    (hd : cipherHashPoints E H
      [E.mulBase random.xA, pkB.y, E.mul pkB.y random.xA] = d)
    (hD : cipherHashPoints E H [pkA.y, pkB.y, E.mul pkB.y skA.x] = D)
    (hne : (d : ZMod E.order) ≠ 0) :
    ∃ kfrags coefficients, generateReKey E H random skA pkA pkB N t = .ok kfrags ∧
      kfrags.length = N.toNat ∧ coefficients.length = t.toNat ∧
      (polyMod E.order coefficients).eval 0 = skA.x / (d : ZMod E.order) ∧
      ∀ kfrag ∈ kfrags, kfrag.XA = E.mulBase random.xA ∧ (kfrag.rk : ZMod E.order) =
        (polyMod E.order coefficients).eval (evaluationPoint H D kfrag.id : ZMod E.order) := by
  obtain ⟨dInv, hinv, hcast⟩ := invertMod_eq hne
  obtain ⟨coefficients, hcoeffs⟩ : ∃ coefficients, (skA.x * dInv % E.order) ::
      (List.range (t - 1).toNat).map (fun k => random.f (k + 1)) = coefficients := ⟨_, rfl⟩
  have hlen : coefficients.length = t.toNat := by
    rw [← hcoeffs, List.length_cons, List.length_map, List.length_range]
    omega
  choose kfrag hkfrag hXA hrk using
    generateKFrag_eq H random skA pkA pkB ht hlen D (E.mulBase random.xA)
  refine ⟨(List.range N.toNat).map kfrag, coefficients, ?_, by simp, hlen, ?_, ?_⟩
  · rw [generateReKey, hd, hD, hinv, ok_bind, mulMod_eq E.order_pos, ok_bind, hcoeffs]
    exact mapM_eq_ok fun i _ => hkfrag i
  · rw [← hcoeffs, eval_polyMod_cons, zero_mul, add_zero, ZMod.intCast_mod, Int.cast_mul, hcast,
      div_eq_mul_inv]
  · intro k hk
    obtain ⟨i, -, rfl⟩ := List.mem_map.mp hk
    exact ⟨hXA i, hrk i⟩

end ReKey

/-! ### Fragments -/

section Fragments

variable {P : Type} [AddCommGroup P] {E : EcGroup P} (H : TpreHash)

theorem lambdaStep_eq {S : List MPInt}
    (hinj : Set.InjOn (Polynomial.points E.order S) (Finset.range S.length)) {i j : ℕ}
    (hi : i < S.length) (hj : j < S.length) {lambda : MPInt}
    (hlambda : (lambda : ZMod E.order) = weight (Polynomial.points E.order S) j 0 i) :
    ∃ lambda', lambdaStep E S i j lambda = .ok lambda' ∧
      (lambda' : ZMod E.order) = weight (Polynomial.points E.order S) (j + 1) 0 i := by
  by_cases hij : i = j
  · subst hij
    rw [lambdaStep, if_neg (not_not_intro rfl)]
    exact ⟨lambda, rfl, hlambda.trans (weight_succ_self _ _ _).symm⟩
  · have hne : (((S.getD j 0 - S.getD i 0) % E.order : ℤ) : ZMod E.order) ≠ 0 := by
      rw [ZMod.intCast_mod, Int.cast_sub, sub_ne_zero]
      exact fun h => hij (hinj (Finset.mem_coe.mpr (Finset.mem_range.mpr hj))
        (Finset.mem_coe.mpr (Finset.mem_range.mpr hi)) h).symm
    obtain ⟨inv, hinv, hcast⟩ := invertMod_eq hne
    rw [lambdaStep, if_pos hij, vecGet_getD hj 0, ok_bind,
      vecGet_getD hi 0, ok_bind, subMod_eq E.order_pos, ok_bind, hinv, ok_bind, ok_bind,
      mulMod_eq E.order_pos, ok_bind, mulMod_eq E.order_pos]
    refine ⟨_, rfl, ?_⟩
    rw [weight_succ_of_ne (Ne.symm hij), ← hlambda, ZMod.intCast_mod, Int.cast_mul,
      ZMod.intCast_mod, Int.cast_mul, hcast, ZMod.intCast_mod, Int.cast_sub, Polynomial.points,
      Polynomial.points]
    ring

/-- **The coefficients** are the weights of the interpolation at zero. -/
theorem exists_lambdas {S : List MPInt}
    (hinj : Set.InjOn (Polynomial.points E.order S) (Finset.range S.length)) :
    ∃ lambdas, ((List.range S.length).mapM fun i =>
        (forLoop S.length (lambdaStep E S i) 1 : Except Exception MPInt)) = .ok lambdas ∧
      lambdas.length = S.length ∧ ∀ i < S.length, ((lambdas.getD i 0 : ℤ) : ZMod E.order) =
        weight (Polynomial.points E.order S) S.length 0 i := by
  have hloop : ∀ i < S.length, ∃ lambda : MPInt, forLoop S.length (lambdaStep E S i) 1 =
      .ok lambda ∧ (lambda : ZMod E.order) = weight (Polynomial.points E.order S) S.length 0 i := by
    intro i hi
    refine forLoop_ok (fun j (lambda : MPInt) =>
      (lambda : ZMod E.order) = weight (Polynomial.points E.order S) j 0 i) ?_ ?_
    · rw [weight_zero, Int.cast_one]
    · exact fun j hj lambda h => lambdaStep_eq hinj hi hj h
  choose! lambda hok hval using hloop
  refine ⟨(List.range S.length).map lambda, mapM_eq_ok fun i hi => hok i (List.mem_range.mp hi),
    by simp, fun i hi => ?_⟩
  rw [getD_map_range hi]
  exact hval i hi

/-- The sums of the first `n` fragments, with the coefficients. -/
def fragSum (f : CFrag P → P) (cfrags : List (CFrag P)) (lambdas : List MPInt) (n : ℕ) : P :=
  ∑ i ∈ Finset.range n, ((lambdas.getD i 0 : ℤ) : ZMod E.order) • (cfrags.map f).getD i 0

theorem primeStep_eq {cfrags : List (CFrag P)} {lambdas : List MPInt}
    (hlen : lambdas.length = cfrags.length) {k : ℕ} (hk : k + 1 < cfrags.length) :
    primeStep E cfrags lambdas k (fragSum (E := E) CFrag.E1 cfrags lambdas (k + 1),
        fragSum (E := E) CFrag.V1 cfrags lambdas (k + 1)) =
      .ok (fragSum (E := E) CFrag.E1 cfrags lambdas (k + 1 + 1),
        fragSum (E := E) CFrag.V1 cfrags lambdas (k + 1 + 1)) := by
  have hget : ∀ f : CFrag P → P, (cfrags.map f).getD (k + 1) 0 = f cfrags[k + 1] := fun f => by
    rw [List.getD_eq_getElem?_getD, List.getElem?_map, List.getElem?_eq_getElem hk]
    rfl
  rw [primeStep, vecGet_of_getElem? (List.getElem?_eq_getElem hk), ok_bind,
    vecGet_getD (hlen ▸ hk) 0, ok_bind, E.mul_eq_smul, E.mul_eq_smul, fragSum, fragSum, fragSum,
    fragSum, Finset.sum_range_succ _ (k + 1), Finset.sum_range_succ _ (k + 1), hget, hget]
  rfl

theorem fragSum_one {cfrags : List (CFrag P)} {cfrag : CFrag P} (h : cfrags[0]? = some cfrag)
    (f : CFrag P → P) (lambdas : List MPInt) :
    fragSum (E := E) f cfrags lambdas 1 = E.mul (f cfrag) (lambdas.getD 0 0) := by
  have hget : (cfrags.map f).getD 0 0 = f cfrag := by
    rw [List.getD_eq_getElem?_getD, List.getElem?_map, h]
    rfl
  rw [fragSum, Finset.sum_range_one, hget, E.mul_eq_smul]

/-- The sums over fragments of one capsule interpolate the polynomial at zero. -/
theorem fragSum_eq {kfrags : List (KFrag P)} {coefficients lambdas : List MPInt} {D : MPInt}
    (hdeg : coefficients.length ≤ kfrags.length)
    (hrk : ∀ kfrag ∈ kfrags, (kfrag.rk : ZMod E.order) =
      (polyMod E.order coefficients).eval (evaluationPoint H D kfrag.id : ZMod E.order))
    (hinj : Set.InjOn (Polynomial.points E.order (kfrags.map fun k => evaluationPoint H D k.id))
      (Finset.range kfrags.length))
    (hlambdas : ∀ i < kfrags.length, ((lambdas.getD i 0 : ℤ) : ZMod E.order) =
      weight (Polynomial.points E.order (kfrags.map fun k => evaluationPoint H D k.id))
        kfrags.length 0 i)
    (cfrag : KFrag P → CFrag P) {f : CFrag P → P} {x : P}
    (hf : ∀ k, f (cfrag k) = E.mul x k.rk) :
    fragSum (E := E) f (kfrags.map cfrag) lambdas kfrags.length =
      (polyMod E.order coefficients).eval 0 • x := by
  have hdegree : (polyMod E.order coefficients).degree < kfrags.length :=
    (degree_polyMod_lt coefficients).trans_le (by exact_mod_cast hdeg)
  rw [← sum_weight_smul hdegree hinj]
  refine Finset.sum_congr rfl fun i hi => ?_
  rw [Finset.mem_range] at hi
  have hget : ((kfrags.map cfrag).map f).getD i 0 = E.mul x kfrags[i].rk := by
    rw [List.getD_eq_getElem?_getD, List.getElem?_map, List.getElem?_map,
      List.getElem?_eq_getElem hi, ← hf]
    rfl
  have hpoint : Polynomial.points E.order (kfrags.map fun k => evaluationPoint H D k.id) i =
      (evaluationPoint H D kfrags[i].id : ZMod E.order) := by
    rw [Polynomial.points, List.getD_eq_getElem?_getD, List.getElem?_map,
      List.getElem?_eq_getElem hi]
    rfl
  rw [hget, hlambdas i hi, E.mul_eq_smul, hrk _ (List.getElem_mem hi), hpoint]

/-- **Decapsulation of fragments.** -/
theorem deCapsulateFrags_eq {skB : PrivateKey} {pkA pkB : PublicKey P} {kfrags : List (KFrag P)}
    {coefficients : List MPInt} {d D : MPInt} {XA : P} (hne : kfrags ≠ [])
    (hdeg : coefficients.length ≤ kfrags.length)
    (hD : cipherHashPoints E H [pkA.y, pkB.y, E.mul pkA.y skB.x] = D)
    (hd : cipherHashPoints E H [XA, pkB.y, E.mul XA skB.x] = d)
    (hrk : ∀ kfrag ∈ kfrags, kfrag.XA = XA ∧ (kfrag.rk : ZMod E.order) =
      (polyMod E.order coefficients).eval (evaluationPoint H D kfrag.id : ZMod E.order))
    (hnodup : (kfrags.map fun k => evaluationPoint H D k.id % (E.order : ℤ)).Nodup)
    (capE capV : P) :
    deCapsulateFrags E H skB pkA pkB
        (kfrags.map fun k => ⟨E.mul capE k.rk, E.mul capV k.rk, k.id, k.XA⟩) =
      .ok (capsuleKey E H (d * (polyMod E.order coefficients).eval 0) capE capV) := by
  have hpos := List.length_pos_iff.mpr hne
  have hinj := Polynomial.points_injOn
    (kfrags.map fun k => evaluationPoint H D k.id) (by rwa [List.map_map])
  obtain ⟨lambdas, hok, hlen, hval⟩ := exists_lambdas hinj
  rw [List.length_map] at hinj hok hlen hval
  obtain ⟨cfrag, hcfrag⟩ : ∃ cfrag : KFrag P → CFrag P, cfrag = fun k =>
    ⟨E.mul capE k.rk, E.mul capV k.rk, k.id, k.XA⟩ := ⟨_, rfl⟩
  have hsumE := fragSum_eq H hdeg (fun k hk => (hrk k hk).2) hinj hval cfrag
    (f := CFrag.E1) fun k => by rw [hcfrag]
  have hsumV := fragSum_eq H hdeg (fun k hk => (hrk k hk).2) hinj hval cfrag
    (f := CFrag.V1) fun k => by rw [hcfrag]
  have hlen' : lambdas.length = (kfrags.map cfrag).length := by rw [hlen, List.length_map]
  have hloop : forLoop (kfrags.length - 1) (primeStep E (kfrags.map cfrag) lambdas) _ = .ok _ :=
    forLoop_eq_ok (fun k => (fragSum CFrag.E1 (kfrags.map cfrag) lambdas (k + 1),
      fragSum CFrag.V1 (kfrags.map cfrag) lambdas (k + 1)))
      fun k hk => primeStep_eq hlen' (by rw [List.length_map]; omega)
  have hS : (kfrags.map cfrag).map (fun c => evaluationPoint H D c.id) =
      kfrags.map fun k => evaluationPoint H D k.id := by
    rw [List.map_map, hcfrag]
    rfl
  have hzero : (kfrags.map cfrag)[0]? = some (cfrag kfrags[0]) := by
    rw [List.getElem?_map, List.getElem?_eq_getElem hpos]
    rfl
  have hXA : (cfrag kfrags[0]).XA = XA := by
    rw [hcfrag]
    exact (hrk _ (List.getElem_mem hpos)).1
  rw [← hcfrag, deCapsulateFrags, hD]
  rw [hS, List.length_map, hok, ok_bind, vecGet_of_getElem? hzero, ok_bind,
    vecGet_getD (by omega) 0, ok_bind, ← fragSum_one hzero, ← fragSum_one hzero, hloop,
    ok_bind, hXA, hd]
  dsimp only
  rw [Nat.sub_add_cancel hpos, hsumE, hsumV, EcGroup.add, ← smul_add, E.mul_eq_smul, smul_smul]
  rfl

end Fragments

/-! ### Correctness -/

section Correct

variable {P : Type} [AddCommGroup P] (E : EcGroup P) (H : TpreHash)

theorem mul_mulBase_comm (a b : MPInt) : E.mul (E.mulBase a) b = E.mul (E.mulBase b) a := by
  rw [E.mul_eq_smul, E.mul_eq_smul, E.mulBase_eq_smul, E.mulBase_eq_smul, smul_smul, smul_smul,
    mul_comm]

/-- **Threshold proxy re-encryption.** For any keys `a` and `b`, a threshold of at least one and any
number of proxies, and a hash value `d` that is invertible: the capsule passes the check, its owner
gets its key back, no proxy rejects it, and the other party gets its key from at least `t` fragments
with different evaluation points. -/
theorem tpre_correct [DecidableEq P] (a b r u : MPInt) (random : ReKeyRandom) (N : ℤ)
    {t : ℤ} (ht : 1 ≤ t)
    (hd : (cipherHashPoints E H [E.mulBase random.xA, E.mulBase b,
      E.mul (E.mulBase b) random.xA] : ZMod E.order) ≠ 0) :
    ∃ capsule key kfrags,
      enCapsulate E H r u (generateKeyPair E a).1 = .ok (capsule, key) ∧
      deCapsulate E H (generateKeyPair E a).2 capsule = key ∧
      checkCapsule E H capsule = (capsule, true) ∧
      generateReKey E H random (generateKeyPair E a).2 (generateKeyPair E a).1
        (generateKeyPair E b).1 N t = .ok kfrags ∧
      kfrags.length = N.toNat ∧
      ∀ subset ⊆ kfrags, t ≤ subset.length →
        (subset.map fun k => evaluationPoint H (cipherHashPoints E H [E.mulBase a, E.mulBase b,
          E.mul (E.mulBase b) a]) k.id % (E.order : ℤ)).Nodup →
        ∃ cfrags, subset.mapM (reEncapsulate E H capsule) = .ok cfrags ∧
          deCapsulateFrags E H (generateKeyPair E b).2 (generateKeyPair E a).1
            (generateKeyPair E b).1 cfrags = .ok key := by
  obtain ⟨capsule, hcapsule, hhonest⟩ := enCapsulate_eq E H r u a
  obtain ⟨kfrags, coefficients, hkfrags, hlen, hcoeffs, hzero, hrk⟩ := generateReKey_eq H random
    (generateKeyPair E a).2 (generateKeyPair E a).1 (generateKeyPair E b).1 N ht rfl rfl hd
  refine ⟨capsule, _, kfrags, hcapsule, deCapsulate_eq E H a capsule, hhonest.checkCapsule_eq,
    hkfrags, hlen, fun subset hsub hsize hnodup => ⟨_, mapM_eq_ok fun kfrag _ =>
      hhonest.reEncapsulate_eq kfrag, ?_⟩⟩
  have hne : subset ≠ [] := List.length_pos_iff.mp (by omega)
  have hD : cipherHashPoints E H [(generateKeyPair E a).1.y, (generateKeyPair E b).1.y,
      E.mul (generateKeyPair E a).1.y (generateKeyPair E b).2.x] =
      cipherHashPoints E H [E.mulBase a, E.mulBase b, E.mul (E.mulBase b) a] := by
    rw [mul_mulBase_comm E b a]
    rfl
  have hd' : cipherHashPoints E H [E.mulBase random.xA, (generateKeyPair E b).1.y,
      E.mul (E.mulBase random.xA) (generateKeyPair E b).2.x] =
      cipherHashPoints E H [E.mulBase random.xA, E.mulBase b, E.mul (E.mulBase b) random.xA] := by
    rw [mul_mulBase_comm E b random.xA]
    rfl
  rw [deCapsulateFrags_eq H hne (by omega) hD hd' (fun k hk => hrk k (hsub hk)) hnodup, hzero]
  dsimp only [generateKeyPair]
  rw [mul_div_cancel₀ _ hd]

end Correct

/-- A hash function with values that are not zero modulo five. -/
def tpreHashFive : TpreHash :=
  ⟨fun bytes => fromMagBytes bytes % 4 + 1, fun Z keyLen => Z.take keyLen⟩

/-- Three proxies and the threshold two over the group of order five: the owner of the capsule gets
its key back, and the other party gets it from the last two fragments. -/
theorem tpre_correct_five : ∃ capsule key kfrags cfrags,
    enCapsulate ecGroupFive tpreHashFive 1 4 (generateKeyPair ecGroupFive 2).1 =
      .ok (capsule, key) ∧
    deCapsulate ecGroupFive tpreHashFive (generateKeyPair ecGroupFive 2).2 capsule = key ∧
    checkCapsule ecGroupFive tpreHashFive capsule = (capsule, true) ∧
    generateReKey ecGroupFive tpreHashFive ⟨3, fun i => i, 1, fun i => i, fun i => i⟩
      (generateKeyPair ecGroupFive 2).2 (generateKeyPair ecGroupFive 2).1
      (generateKeyPair ecGroupFive 3).1 3 2 = .ok kfrags ∧ kfrags.length = 3 ∧
    (kfrags.drop 1).mapM (reEncapsulate ecGroupFive tpreHashFive capsule) = .ok cfrags ∧
    deCapsulateFrags ecGroupFive tpreHashFive (generateKeyPair ecGroupFive 3).2
      (generateKeyPair ecGroupFive 2).1 (generateKeyPair ecGroupFive 3).1 cfrags = .ok key := by
  obtain ⟨capsule, key, kfrags, hcapsule, howner, hcheck, hkfrags, hlen, hfrags⟩ :=
    tpre_correct ecGroupFive tpreHashFive 2 3 1 4 ⟨3, fun i => i, 1, fun i => i, fun i => i⟩ 3
      (t := 2) (by decide) (by decide)
  -- the fragments have the numbers `0`, `1` and `2`, and the evaluation points `1`, `2` and `3`
  have hnodup : ((kfrags.drop 1).map fun k => evaluationPoint tpreHashFive
      (cipherHashPoints ecGroupFive tpreHashFive [ecGroupFive.mulBase 2, ecGroupFive.mulBase 3,
        ecGroupFive.mul (ecGroupFive.mulBase 3) 2]) k.id % (ecGroupFive.order : ℤ)).Nodup := by
    cases hkfrags
    decide
  obtain ⟨cfrags, hcfrags, hkey⟩ := hfrags (kfrags.drop 1) (List.drop_subset 1 kfrags)
    (by rw [List.length_drop, hlen]; decide) hnodup
  exact ⟨capsule, key, kfrags, cfrags, hcapsule, howner, hcheck, hkfrags, hlen, hcfrags, hkey⟩

end Yacl.Crypto
