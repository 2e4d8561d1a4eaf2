import Yacl.Kernel.BaseVole
import Yacl.Kernel.MpfssCorrect

/-!
# Multi-point vector OLE

The model of `yacl/kernel/algorithms/mp_vole.h`. The weights of the multi-point function secret
sharing are the entries `w` of a few vector OLEs; the receiver puts the entries `u` at the indexes
of a vector `a` that is zero elsewhere, and adds the entries `v` there. Then `c = a * delta + b`
everywhere.

The objects are set up once with the vector OLEs; in the malicious mode there is one more of them,
which masks a check at the end. `MpVoleSender` and `MpVoleReceiver` are the states of the objects,
and every method returns the new state of its object.
-/

open Loop TwoParty Proc BinaryField Yacl.Math

namespace Yacl.Crypto

/-- The memory of the programs for the types. -/
def VoleTypes.Mem : VoleTypes → Type
  | f64 => List (BitVec (8 * 8)) × List Uint128
  | f128 => List Uint128
  | subfield => List Uint128

/-- The overloads of `MpfssSend` and `MpfssRecv` for `K`. -/
def VoleTypes.mem : (V : VoleTypes) → MpfssMem V.k V.Mem
  | f64 => mpfssMem64
  | f128 => mpfssMem128
  | subfield => mpfssMem128

/-- `MpfssOp()`: the exclusive-or. -/
def mpfssOpDefault (k : ℕ) : MpfssOp (BitVec (8 * k)) := xorOp k

section Programs

variable (T : Tools) {t k : ℕ} {σ : Type} (G : VoleGf t k) (M : MpfssMem k σ)

/-! ### The sender -/

/-- `MpVoleSender`: the vector `pre_c` of the base OLEs, and whether it was set up and finished. -/
structure MpVoleSender (k : ℕ) where
  param : MpFssParam
  delta : BitVec (8 * k)
  preC : List (BitVec (8 * k))
  isMal : Bool
  isSetup : Bool
  isFinish : Bool

namespace MpVoleSender

/-- The constructor. -/
def make (param : MpFssParam) : MpVoleSender k := ⟨param, 0, [], param.isMal, false, false⟩

/-- `OneTimeSetup`. -/
def oneTimeSetup (self : MpVoleSender k) (delta : BitVec (8 * k)) (preC : List (BitVec (8 * k))) :
    Except Exception (MpVoleSender k) := do
  enforce (self.param.baseVoleNum = preC.length) "param_.base_vole_num_ == pre_c.size()" ""
  pure { self with delta := delta, preC := preC, isSetup := true, isFinish := false }

/-- The call of MPFSS in `Send`. -/
def mpfss (self : MpVoleSender k) (cot : OtSendStore) (seed : ℕ → Uint128)
    (c : List (BitVec (8 * k))) (fixedIndex : Bool) : Party (List (BitVec (8 * k))) :=
  if fixedIndex then
    mpfssSendFixedIndex T M (mpfssOpDefault k) self.param cot seed self.preC c
  else mpfssSend T M (mpfssOpDefault k) self.param cot seed self.preC c

/-- The hash that the sender computes from the payload of the receiver. -/
def checkHash (self : MpVoleSender k) (seed : BitVec (8 * k)) (c : List (BitVec (8 * k)))
    (buf : List Bytes.Byte) : Except Exception (BitVec (8 * 32)) := do
  let uhash := universalHash G.gfMul seed (c.take self.param.mpVoleSize)
  enforce (buf.length = k) "buf.size() == sizeof(K)" ""
  let payload := Bytes.wordAt k buf 0
  let last ← vecGet self.preC (self.param.baseVoleNum - 1)
  let uhash := uhash ^^^ G.gfMul payload self.delta ^^^ last
  pure (T.blake3 (Bytes.wordBytes k uhash))

/-- The check of the malicious mode. -/
def check (self : MpVoleSender k) (c : List (BitVec (8 * k))) : Party Unit := do
  if self.isMal then
    let seed ← syncSeedRecv T
    let buf ← recv
    let hash ← self.checkHash T G (seed.setWidth (8 * k)) c buf
    sendAsync (Bytes.wordBytes 32 hash)
  else pure ()

/-- `Send`; the results are the object and `c` after the call. -/
def send (self : MpVoleSender k) (cot : OtSendStore) (seed : ℕ → Uint128)
    (c : List (BitVec (8 * k))) (fixedIndex : Bool) :
    Party (MpVoleSender k × List (BitVec (8 * k))) := do
  enforce (self.isSetup = true) "is_setup_ == true" ""
  enforce (self.isFinish = false) "is_finish_ == false" ""
  enforce (c.length ≥ self.param.mpVoleSize) "c.size() >= param_.mp_vole_size_" ""
  let c ← self.mpfss T M cot seed c fixedIndex
  self.check T G c
  pure ({ self with isFinish := true }, c)

end MpVoleSender

/-! ### The receiver -/

/-- `MpVoleReceiver`: the vectors `pre_a` and `pre_b` of the base OLEs, and the same two flags. -/
structure MpVoleReceiver (t k : ℕ) where
  param : MpFssParam
  preA : List (BitVec (8 * t))
  preB : List (BitVec (8 * k))
  isMal : Bool
  isSetup : Bool
  isFinish : Bool

/-- The vectors that the receiver fills after MPFSS. -/
structure MpVoleVectors (t k : ℕ) where
  indexes : List ℕ
  a : List (BitVec (8 * t))
  b : List (BitVec (8 * k))

namespace MpVoleReceiver

/-- The constructor. -/
def make (param : MpFssParam) : MpVoleReceiver t k := ⟨param, [], [], param.isMal, false, false⟩

/-- `OneTimeSetup`, which does not reset `is_finish_`. -/
def oneTimeSetup (self : MpVoleReceiver t k) (preA : List (BitVec (8 * t)))
    (preB : List (BitVec (8 * k))) : Except Exception (MpVoleReceiver t k) := do
  enforce (self.param.baseVoleNum = preA.length) "param_.base_vole_num_ == pre_a.size()" ""
  enforce (self.param.baseVoleNum = preB.length) "param_.base_vole_num_ == pre_b.size()" ""
  pure { self with preA := preA, preB := preB, isSetup := true }

/-- The call of MPFSS in `Recv`; with fixed indexes it also sets `param_.indexes_`. -/
def mpfss (self : MpVoleReceiver t k) (cot : OtRecvStore) (b : List (BitVec (8 * k)))
    (fixedIndex : Bool) : Party (List (BitVec (8 * k)) × List ℕ) :=
  if fixedIndex then mpfssRecvFixedIndex T M (mpfssOpDefault k) self.param cot b
  else do
    let b ← mpfssRecv T M (mpfssOpDefault k) self.param cot b
    pure (b, self.param.indexes)

/-- The body of the loop that inserts the base vector OLEs. -/
def insert (self : MpVoleReceiver t k) (i : ℕ) (x : MpVoleVectors t k) :
    Except Exception (MpVoleVectors t k) := do
  let index := i * self.param.spVoleSize + (← vecGet self.param.indexes i)
  let indexes ← vecSet x.indexes i index
  let a ← vecSet x.a index (← vecGet self.preA i)
  let b ← vecSet x.b index ((← vecGet x.b index) ^^^ (← vecGet self.preB i))
  pure ⟨indexes, a, b⟩

/-- The payload of the check, and the hash that the receiver expects. -/
def checkPayload (self : MpVoleReceiver t k) (seed : BitVec (8 * k)) (x : MpVoleVectors t k) :
    Except Exception (BitVec (8 * k) × BitVec (8 * k)) := do
  let uhash := universalHash G.gfMul seed (x.b.take self.param.mpVoleSize)
  let coef ← extractHashCoef G.gfMul seed x.indexes
  let payload ← G.gfMulSpanT coef (self.preA.take x.indexes.length)
  let lastA ← vecGet self.preA (self.param.baseVoleNum - 1)
  let lastB ← vecGet self.preB (self.param.baseVoleNum - 1)
  pure (payload ^^^ lastA.setWidth (8 * k), uhash ^^^ lastB)

/-- The check of the malicious mode, with the seed that the receiver draws. -/
def check (self : MpVoleReceiver t k) (syncSeed : Uint128) (x : MpVoleVectors t k) :
    Party Unit := do
  if self.isMal then
    let seed ← syncSeedSend T syncSeed
    let (payload, uhash) ← self.checkPayload G (seed.setWidth (8 * k)) x
    sendAsync (Bytes.wordBytes k payload)
    let hash := T.blake3 (Bytes.wordBytes k uhash)
    let buf ← recv
    enforce (Bytes.wordBytes 32 hash = buf) "ByteContainerView(hash) == ByteContainerView(buf)" ""
  else pure ()

/-- `Recv`; the results are the object, `a` and `b` after the call. -/
def recv (self : MpVoleReceiver t k) (cot : OtRecvStore) (syncSeed : Uint128)
    (a : List (BitVec (8 * t))) (b : List (BitVec (8 * k))) (fixedIndex : Bool) :
    Party (MpVoleReceiver t k × List (BitVec (8 * t)) × List (BitVec (8 * k))) := do
  enforce (self.isSetup = true) "is_setup_ == true" ""
  enforce (self.isFinish = false) "is_finish_ == false" ""
  enforce (a.length ≥ self.param.mpVoleSize) "a.size() >= param_.mp_vole_size_" ""
  enforce (b.length ≥ self.param.mpVoleSize) "b.size() >= param_.mp_vole_size_" ""
  let (b, indexes) ← self.mpfss T M cot b fixedIndex
  let self := { self with param := self.param.withIndexes indexes }
  let x ← (forLoop self.param.noiseNum self.insert
    ⟨List.replicate self.param.noiseNum 0, List.replicate a.length 0, b⟩ :
      Except Exception (MpVoleVectors t k))
  self.check T G syncSeed x
  pure ({ self with isFinish := true }, x.a, x.b)

end MpVoleReceiver

end Programs

/-! ### The receiver's vectors -/

section Vectors

variable {t k : ℕ} {p : MpFssParam}

theorem MpFssParam.pos_inj {i j i' j' : ℕ} (hi : i < p.noiseNum) (hj : j < p.binSize i)
    (hi' : i' < p.noiseNum) (hj' : j' < p.binSize i')
    (h : i * p.spVoleSize + j = i' * p.spVoleSize + j') : i = i' ∧ j = j' := by
  have hbin := p.bin_add hi hj
  have hoff := p.off_add hi hj
  rw [h, p.bin_add hi' hj'] at hbin
  rw [h, p.off_add hi' hj'] at hoff
  exact ⟨hbin.symm, hoff.symm⟩

/-- The vectors when the first `m` base vector OLEs are inserted into `b` and a vector of zeros. -/
structure InsertedUpTo (p : MpFssParam) (index : ℕ → ℕ) (preA : List (BitVec (8 * t)))
    (preB b : List (BitVec (8 * k))) (len m : ℕ) (x : MpVoleVectors t k) : Prop where
  length_indexes : x.indexes.length = p.noiseNum
  length_a : x.a.length = len
  length_b : x.b.length = b.length
  a_eq : ∀ i < p.noiseNum, ∀ j < p.binSize i, x.a[i * p.spVoleSize + j]? =
    some (if i < m ∧ j = index i then preA.getD i 0 else 0)
  a_tail : ∀ q, p.mpVoleSize ≤ q → q < len → x.a[q]? = some 0
  b_eq : ∀ i < p.noiseNum, ∀ j < p.binSize i, x.b[i * p.spVoleSize + j]? =
    b[i * p.spVoleSize + j]?.map fun y => if i < m ∧ j = index i then y ^^^ preB.getD i 0 else y

variable {index : ℕ → ℕ} {b : List (BitVec (8 * k))} {len m : ℕ}

theorem InsertedUpTo.of_withIndexes {preA : List (BitVec (8 * t))} {preB : List (BitVec (8 * k))}
    {x : MpVoleVectors t k} {l : List ℕ}
    (h : InsertedUpTo (p.withIndexes l) index preA preB b len m x) :
    InsertedUpTo p index preA preB b len m x :=
  ⟨h.length_indexes, h.length_a, h.length_b, h.a_eq, h.a_tail, h.b_eq⟩

/-- A position other than the one of bin `m` is inserted into before step `m` or not at all. -/
theorem inserted_succ {i j : ℕ} (hne : m * p.spVoleSize + index m ≠ i * p.spVoleSize + j) :
    (i < m ∧ j = index i) ↔ i < m + 1 ∧ j = index i := by
  refine and_congr_left fun hj => ⟨Nat.lt_succ_of_lt, fun hi => ?_⟩
  refine Nat.lt_of_le_of_ne (Nat.le_of_lt_succ hi) ?_
  rintro rfl
  exact hne (by rw [hj])

/-- **Inserting one base vector OLE.** -/
theorem MpVoleReceiver.insert_eq {self : MpVoleReceiver t k} (hm : m < self.param.noiseNum)
    (hget : vecGet self.param.indexes m = .ok (index m)) (hindex : index m < self.param.binSize m)
    (hA : m < self.preA.length) (hB : m < self.preB.length) (hlen : self.param.mpVoleSize ≤ len)
    (hb : self.param.mpVoleSize ≤ b.length) {x : MpVoleVectors t k}
    (hx : InsertedUpTo self.param index self.preA self.preB b len m x) :
    ∃ x', self.insert m x = .ok x' ∧
      InsertedUpTo self.param index self.preA self.preB b len (m + 1) x' := by
  have hpos : m * self.param.spVoleSize + index m < self.param.mpVoleSize :=
    (Nat.add_lt_add_left hindex _).trans_le (self.param.add_binSize_le hm)
  obtain ⟨y, hy⟩ : ∃ y, b[m * self.param.spVoleSize + index m]? = some y :=
    ⟨_, List.getElem?_eq_getElem (by omega)⟩
  have hgetB : vecGet x.b (m * self.param.spVoleSize + index m) = .ok y := by
    refine vecGet_of_getElem? ?_
    rw [hx.b_eq m hm _ hindex, hy, Option.map_some, if_neg (by omega)]
  have hpreA : vecGet self.preA m = .ok (self.preA.getD m 0) := by
    refine vecGet_of_getElem? ?_
    rw [List.getD_eq_getElem?_getD, List.getElem?_eq_getElem hA, Option.getD_some]
  have hpreB : vecGet self.preB m = .ok (self.preB.getD m 0) := by
    refine vecGet_of_getElem? ?_
    rw [List.getD_eq_getElem?_getD, List.getElem?_eq_getElem hB, Option.getD_some]
  refine ⟨⟨x.indexes.set m (m * self.param.spVoleSize + index m),
    x.a.set (m * self.param.spVoleSize + index m) (self.preA.getD m 0),
    x.b.set (m * self.param.spVoleSize + index m) (y ^^^ self.preB.getD m 0)⟩, ?_,
    (List.length_set ..).trans hx.length_indexes, (List.length_set ..).trans hx.length_a,
    (List.length_set ..).trans hx.length_b, fun i hi j hj => ?_, fun q hq hql => ?_,
    fun i hi j hj => ?_⟩
  · rw [insert, hget, ok_bind]
    dsimp only
    rw [vecSet_of_lt (by rw [hx.length_indexes]; exact hm), ok_bind, hpreA, ok_bind,
      vecSet_of_lt (by rw [hx.length_a]; omega), ok_bind, hgetB, ok_bind, hpreB, ok_bind,
      vecSet_of_lt (by rw [hx.length_b]; omega)]
    rfl
  · by_cases heq : m * self.param.spVoleSize + index m = i * self.param.spVoleSize + j
    · obtain ⟨rfl, rfl⟩ := self.param.pos_inj hm hindex hi hj heq
      rw [List.getElem?_set_self (by rw [hx.length_a]; omega),
        if_pos ⟨Nat.lt_succ_self _, rfl⟩]
    · rw [List.getElem?_set_ne heq, hx.a_eq i hi j hj, if_congr (inserted_succ heq) rfl rfl]
  · rw [List.getElem?_set_ne (by omega), hx.a_tail q hq hql]
  · by_cases heq : m * self.param.spVoleSize + index m = i * self.param.spVoleSize + j
    · obtain ⟨rfl, rfl⟩ := self.param.pos_inj hm hindex hi hj heq
      rw [List.getElem?_set_self (by rw [hx.length_b]; omega), hy, Option.map_some,
        if_pos ⟨Nat.lt_succ_self _, rfl⟩]
    · rw [List.getElem?_set_ne heq, hx.b_eq i hi j hj]
      simp only [inserted_succ heq]

/-- **Inserting all base vector OLEs.** -/
theorem MpVoleReceiver.insert_all (self : MpVoleReceiver t k)
    (hget : ∀ i < self.param.noiseNum, vecGet self.param.indexes i = .ok (index i))
    (hindex : ∀ i < self.param.noiseNum, index i < self.param.binSize i)
    (hA : self.param.noiseNum ≤ self.preA.length) (hB : self.param.noiseNum ≤ self.preB.length)
    (hlen : self.param.mpVoleSize ≤ len) (hb : self.param.mpVoleSize ≤ b.length) :
    ∃ x, forLoop self.param.noiseNum self.insert
        ⟨List.replicate self.param.noiseNum 0, List.replicate len 0, b⟩ = .ok x ∧
      InsertedUpTo self.param index self.preA self.preB b len self.param.noiseNum x := by
  refine forLoop_ok (InsertedUpTo self.param index self.preA self.preB b len) ?_
    fun i hi x hx => insert_eq hi (hget i hi) (hindex i hi) (hi.trans_le hA) (hi.trans_le hB)
      hlen hb hx
  refine ⟨List.length_replicate, List.length_replicate, rfl, fun i hi j hj => ?_,
    fun q _ hq => List.getElem?_replicate_of_lt hq, fun i hi j hj => ?_⟩
  · have hpos : i * self.param.spVoleSize + j < len :=
      ((Nat.add_lt_add_left hj _).trans_le (self.param.add_binSize_le hi)).trans_le hlen
    rw [if_neg (by omega), List.getElem?_replicate_of_lt hpos]
  · simp

end Vectors

/-! ### The check -/

section Check

variable (T : Tools) {t k : ℕ} (G : VoleGf t k)

/-- **The check** lets the parties go on or throw. -/
theorem mpVoleCheck_session {self : MpVoleSender k} {self' : MpVoleReceiver t k}
    (hmal : self.isMal = self'.isMal) (c : List (BitVec (8 * k))) (seed : Uint128)
    (x : MpVoleVectors t k) :
    Session (self.isMal = true) (self.check T G c) (self'.check T G seed x) fun _ _ => True := by
  rw [MpVoleSender.check, MpVoleReceiver.check, ← hmal]
  split
  · next h =>
    refine .bind (.of_false (syncSeed_session_right T seed)) ?_
    rintro _ _ ⟨rfl, rfl⟩
    refine .bind_except_right h fun payload _ => .recv_send ?_
    refine .bind_except_left h fun hash _ => .send_recv ?_
    exact .except_right h fun _ _ => trivial
  · exact .ret trivial

end Check

/-! ### Correctness -/

/-- The laws of the memory for the types. -/
def VoleTypes.memLaws : (V : VoleTypes) → V.mem.Laws
  | f64 => mpfssMem64Laws
  | f128 => mpfssMem128Laws
  | subfield => mpfssMem128Laws

section Runs

variable (T : Tools) {t k : ℕ} {σ : Type} (G : VoleGf t k) {M : MpfssMem k σ} {p : MpFssParam}

theorem MpVoleSender.oneTimeSetup_eq {delta : BitVec (8 * k)} {preC : List (BitVec (8 * k))}
    {self : MpVoleSender k} (h : (make p).oneTimeSetup delta preC = .ok self) :
    preC.length = p.baseVoleNum ∧ self = ⟨p, delta, preC, p.isMal, true, false⟩ := by
  obtain ⟨hlen, h⟩ := of_enforce_bind h
  exact ⟨hlen.symm, (Except.ok.inj h).symm⟩

theorem MpVoleReceiver.oneTimeSetup_eq {preA : List (BitVec (8 * t))}
    {preB : List (BitVec (8 * k))} {self : MpVoleReceiver t k}
    (h : (make p).oneTimeSetup preA preB = .ok self) :
    preA.length = p.baseVoleNum ∧ preB.length = p.baseVoleNum ∧
      self = ⟨p, preA, preB, p.isMal, true, false⟩ := by
  obtain ⟨hlenA, h⟩ := of_enforce_bind h
  obtain ⟨hlenB, h⟩ := of_enforce_bind h
  exact ⟨hlenA.symm, hlenB.symm, (Except.ok.inj h).symm⟩

theorem MpFssParam.noiseNum_le_baseVoleNum (p : MpFssParam) : p.noiseNum ≤ p.baseVoleNum := by
  rw [baseVoleNum]
  split <;> omega

/-- **Multi-point vector OLE.** At every position `vecC = a * delta + b` in the field with modulus
`m`; the vector `a` has the entries of `u` at the indexes, and zeros elsewhere. -/
structure MpVoleRelated (m : BitVec (8 * k)) (p : MpFssParam) (delta : BitVec (8 * k))
    (u : List (BitVec (8 * t))) (vecC : List (BitVec (8 * k))) (a : List (BitVec (8 * t)))
    (b : List (BitVec (8 * k))) : Prop where
  eq_mul_add : ∀ q < p.mpVoleSize, ∃ x y z, vecC[q]? = some x ∧ a[q]? = some y ∧ b[q]? = some z ∧
    elem m x = elem m y * elem m delta + elem m z
  at_index : ∀ i < p.noiseNum, a[i * p.spVoleSize + p.index i]? = some (u.getD i 0)
  elsewhere : ∀ q < a.length, (∀ i < p.noiseNum, q ≠ i * p.spVoleSize + p.index i) →
    a[q]? = some 0

/-- The base vector OLEs turn the relation of MPFSS into the one of vector OLE. -/
theorem InsertedUpTo.related {m : BitVec (8 * k)} {delta : BitVec (8 * k)}
    {w v b c : List (BitVec (8 * k))} {u : List (BitVec (8 * t))} {len : ℕ}
    {x : MpVoleVectors t k} (hindex : ∀ i < p.noiseNum, p.index i < p.binSize i)
    (hbase : ∀ i < p.noiseNum,
      elem m (w.getD i 0) = elem m (u.getD i 0) * elem m delta + elem m (v.getD i 0))
    (hx : InsertedUpTo p p.index u v b len p.noiseNum x)
    (hcb : MpfssRelated (xorOp k) p p.index w c b) : MpVoleRelated m p delta u c x.a x.b := by
  refine ⟨fun q hq => ?_, fun i hi => ?_, fun q hq hne => ?_⟩
  · have hbin := p.bin_lt q
    have hoff := p.off_lt hq
    obtain ⟨y, hb, hc⟩ := hcb _ hbin _ hoff
    have ha := hx.a_eq _ hbin _ hoff
    have hb' := hx.b_eq _ hbin _ hoff
    rw [hb, Option.map_some] at hb'
    rw [p.bin_mul_add_off] at ha hb' hc
    refine ⟨_, _, _, hc, ha, hb', ?_⟩
    by_cases h : p.off q = p.index (p.bin q)
    · rw [if_pos h, if_pos ⟨hbin, h⟩, if_pos ⟨hbin, h⟩, xorOp, elem_xor, elem_xor, hbase _ hbin]
      ring
    · rw [if_neg h, if_neg (h ·.2), if_neg (h ·.2)]
      simp
  · rw [hx.a_eq i hi _ (hindex i hi), if_pos ⟨hi, rfl⟩]
  · rcases Nat.lt_or_ge q p.mpVoleSize with h | h
    · have ha := hx.a_eq _ (p.bin_lt q) _ (p.off_lt h)
      rw [p.bin_mul_add_off, if_neg] at ha
      · exact ha
      · rintro ⟨hi, hoff⟩
        exact hne _ hi (by rw [← hoff, p.bin_mul_add_off])
    · exact hx.a_tail q h (hx.length_a ▸ hq)

theorem MpfssRelated.length_le {op : MpfssOp (BitVec (8 * k))} {index : ℕ → ℕ}
    {w a b : List (BitVec (8 * k))} (h : MpfssRelated op p index w a b) :
    p.mpVoleSize ≤ b.length := by
  rcases Nat.eq_zero_or_pos p.mpVoleSize with h0 | hpos
  · omega
  · have hlt := Nat.sub_lt hpos Nat.one_pos
    obtain ⟨y, hy, -⟩ := h _ (p.bin_lt _) _ (p.off_lt hlt)
    rw [p.bin_mul_add_off] at hy
    have := (List.getElem?_eq_some_iff.mp hy).1
    omega

/-- What is allocated does not depend on the indexes. -/
def MpfssMem.IgnoresIndexes (M : MpfssMem k σ) : Prop :=
  ∀ (p : MpFssParam) (l : List ℕ) (out : List (BitVec (8 * k))),
    M.alloc (p.withIndexes l) out = M.alloc p out ∧
      M.allocFixed (p.withIndexes l) out = M.allocFixed p out

theorem MpVoleSender.mpfss_withIndexes (hM : M.IgnoresIndexes) {self : MpVoleSender k} {l : List ℕ}
    (hself : self.param = p.withIndexes l) (s : OtSendStore) (seed : ℕ → Uint128)
    (c : List (BitVec (8 * k))) (fixedIndex : Bool) :
    self.mpfss T M s seed c fixedIndex =
      if fixedIndex then mpfssSendFixedIndex T M (xorOp k) p s seed self.preC c
      else mpfssSend T M (xorOp k) p s seed self.preC c := by
  rw [mpfss, hself, mpfssSendFixedIndex, mpfssSend, (hM p l c).1, (hM p l c).2]
  rfl

section Session

variable {r : OtRecvStore} {s : OtSendStore} (hots : MpfssOts p r s)
  (hlen : p.indexes.length = p.noiseNum) (hindex : ∀ i < p.noiseNum, p.index i < p.binSize i)
  (hbin : p.lastSpVoleSize < 2 ^ 31) {fixedIndex : Bool}
  (hchoice : fixedIndex = true → ∃ c, p.genChoices = .ok c ∧
    ∀ i < p.requireOtNum, r.choice i = c.bit i)
  (seed : ℕ → Uint128)
variable {receiver : MpVoleReceiver t k}

include hots hlen hindex hbin hchoice in
/-- **The call of MPFSS**, in both modes. -/
theorem mpVoleMpfss_session (L : M.Laws) (hM : M.IgnoresIndexes) (ht : p.noiseNum < 2 ^ 32)
    (hfixed : fixedIndex = true → L.FixedOk p) {sender : MpVoleSender k} {l : List ℕ}
    (hsender : sender.param = p.withIndexes l) (hreceiver : receiver.param = p)
    (hw : p.noiseNum ≤ sender.preC.length) {c b : List (BitVec (8 * k))}
    (hc : p.mpVoleSize ≤ c.length) (hb : p.mpVoleSize ≤ b.length) :
    Session False (sender.mpfss T M s seed c fixedIndex) (receiver.mpfss T M r b fixedIndex)
      fun x y => MpfssRelated (xorOp k) p p.index sender.preC x y.1 ∧
        ∀ i < p.noiseNum, vecGet y.2 i = .ok (p.index i) := by
  rw [MpVoleSender.mpfss_withIndexes T hM hsender, MpVoleReceiver.mpfss, hreceiver]
  cases fixedIndex with
  | false =>
    rw [if_neg Bool.false_ne_true, if_neg Bool.false_ne_true]
    rw [← Proc.bind_ret (mpfssSend ..)]
    refine Session.bind (mpfss_session T hots hbin seed hc hb (xorOp_isGroup k) ht hlen hindex hw L)
      fun x y hxy => .ret ⟨hxy, fun i hi => p.vecGet_indexes hlen hi⟩
  | true =>
    obtain ⟨choices, hgen, hbits⟩ := hchoice rfl
    obtain ⟨choices', hgen', hbit⟩ := p.genChoices_eq hlen hbin.le
    obtain rfl : choices = choices' := Except.ok.inj (hgen.symm.trans hgen')
    rw [if_pos rfl, if_pos rfl]
    refine (mpfssFixedIndex_session T hots hbin (hfixed rfl) seed hindex (fun i hi k hk => ?_) hc hb
      (xorOp_isGroup k) ht hlen hw).mono fun x y h =>
        ⟨h.1, fun i hi => vecGet_of_getElem? (h.2.2 i hi)⟩
    have := p.slice_le hi
    rw [hbits _ (by omega), hbit i hi k hk]

include hots hlen hindex hbin hchoice in
/-- **A run**, when the spans are large enough and the programs can allocate what they need. Only
the check of the malicious mode can fail. -/
theorem mpVole_session (L : M.Laws) (hM : M.IgnoresIndexes) (ht : p.noiseNum < 2 ^ 32)
    (hfixed : fixedIndex = true → L.FixedOk p) {delta : BitVec (8 * k)}
    {preC preB : List (BitVec (8 * k))} {preA : List (BitVec (8 * t))} {l : List ℕ}
    {sender : MpVoleSender k}
    (hsender : (MpVoleSender.make (p.withIndexes l)).oneTimeSetup delta preC = .ok sender)
    (hreceiver : (MpVoleReceiver.make p).oneTimeSetup preA preB = .ok receiver)
    (hbase : ∀ i < p.noiseNum, elem G.modulo (preC.getD i 0) =
      elem G.modulo (preA.getD i 0) * elem G.modulo delta + elem G.modulo (preB.getD i 0))
    (syncSeed : Uint128) {c b : List (BitVec (8 * k))} {a : List (BitVec (8 * t))}
    (hc : p.mpVoleSize ≤ c.length) (ha : p.mpVoleSize ≤ a.length) (hb : p.mpVoleSize ≤ b.length) :
    Session (p.isMal = true) (sender.send T G M s seed c fixedIndex)
      (receiver.recv T G M r syncSeed a b fixedIndex)
      fun x y => MpVoleRelated G.modulo p delta preA x.2 y.2.1 y.2.2 := by
  obtain ⟨hlenC, rfl⟩ := MpVoleSender.oneTimeSetup_eq hsender
  obtain ⟨hlenA, hlenB, rfl⟩ := MpVoleReceiver.oneTimeSetup_eq hreceiver
  have hle := p.noiseNum_le_baseVoleNum
  have hlenC : preC.length = p.baseVoleNum := hlenC
  rw [MpVoleSender.send, MpVoleReceiver.recv]
  dsimp only
  rw [bind_enforce rfl, bind_enforce rfl,
    bind_enforce (show c.length ≥ (p.withIndexes l).mpVoleSize from hc), bind_enforce rfl,
    bind_enforce rfl, bind_enforce ha, bind_enforce hb]
  refine .bind (.of_false (mpVoleMpfss_session T hots hlen hindex hbin hchoice seed L hM ht hfixed
    rfl rfl (hlenC ▸ hle) hc hb)) ?_
  rintro c' ⟨b', indexes⟩ ⟨hrelated, hget⟩
  obtain ⟨x, hx, hinserted⟩ := MpVoleReceiver.insert_all
    ⟨p.withIndexes indexes, preA, preB, p.isMal, true, false⟩ hget hindex (hlenA ▸ hle)
    (hlenB ▸ hle) ha hrelated.length_le
  dsimp only
  rw [bind_of_ok hx]
  refine .bind (mpVoleCheck_session T G rfl c' syncSeed x) fun _ _ _ => .ret ?_
  exact hinserted.of_withIndexes.related hindex hbase hrelated

/-- With too many bins the receiver never returns: the counter of a loop over the bins has `32`
bits. -/
theorem MpVoleReceiver.mpfss_neverReturns (ht : 2 ^ 32 ≤ receiver.param.noiseNum) (r : OtRecvStore)
    (b : List (BitVec (8 * k))) (fixedIndex : Bool) :
    (receiver.mpfss T M r b fixedIndex).NeverReturns := by
  rw [mpfss]
  split
  · refine neverReturns_bind _ fun _ => neverReturns_bind _ fun _ => neverReturns_bind _ fun _ =>
      neverReturns_bind _ fun _ => neverReturns_bind _ fun _ => neverReturns_bind _ fun _ =>
      neverReturns_bind _ fun _ => ?_
    rw [mpfssCorrectAll, if_neg (by omega)]
    trivial
  · refine NeverReturns.bind ?_ _
    refine neverReturns_bind _ fun _ => neverReturns_bind _ fun _ => neverReturns_bind _ fun _ =>
      neverReturns_bind _ fun _ => NeverReturns.bind ?_ _
    rw [forLoop32, if_neg (by omega)]
    trivial

end Session

end Runs

theorem VoleTypes.mem_ignoresIndexes (V : VoleTypes) : V.mem.IgnoresIndexes := by
  intro p l out
  cases V
  · exact ⟨rfl, rfl⟩
  · exact ⟨rfl, rfl⟩
  · exact ⟨rfl, rfl⟩

theorem VoleTypes.allocFixed_of_not {V : VoleTypes} {p : MpFssParam}
    (hbin : p.lastSpVoleSize < 2 ^ 31) (h : ¬V.memLaws.FixedOk p) (out : List (BitVec (8 * V.k))) :
    ∃ e, V.mem.allocFixed p out = .error e := by
  cases V
  · exact ⟨_, allocFixed_of_large hbin (Nat.not_le.mp h) out⟩
  · exact absurd trivial h
  · exact absurd trivial h

section Correct

variable (T : Tools) (V : VoleTypes) {p : MpFssParam} {r : OtRecvStore} {s : OtSendStore}
  (hots : MpfssOts p r s) (hlen : p.indexes.length = p.noiseNum)
  (hindex : ∀ i < p.noiseNum, p.index i < p.binSize i) (hbin : p.lastSpVoleSize < 2 ^ 31)
  {fixedIndex : Bool} (hchoice : fixedIndex = true → ∃ c, p.genChoices = .ok c ∧
    ∀ i < p.requireOtNum, r.choice i = c.bit i)
  {delta : BitVec (8 * V.k)} {preC preB : List (BitVec (8 * V.k))} {preA : List (BitVec (8 * V.t))}
  (hbase : ∀ i < p.noiseNum, elem V.gf.modulo (preC.getD i 0) =
    elem V.gf.modulo (preA.getD i 0) * elem V.gf.modulo delta + elem V.gf.modulo (preB.getD i 0))
  {l : List ℕ} {sender : MpVoleSender V.k} {receiver : MpVoleReceiver V.t V.k}
  (hsender : (MpVoleSender.make (p.withIndexes l)).oneTimeSetup delta preC = .ok sender)
  (hreceiver : (MpVoleReceiver.make p).oneTimeSetup preA preB = .ok receiver)
  (seed : ℕ → Uint128) (syncSeed : Uint128) (c b : List (BitVec (8 * V.k)))
  (a : List (BitVec (8 * V.t)))

include hots hlen hindex hbin hchoice hbase hsender hreceiver in
/-- **The semi-honest mode completes**, with spans that are large enough and parameters for which
MPFSS works. -/
theorem mpVole_completes (hmal : p.isMal = false) (ht : p.noiseNum < 2 ^ 32)
    (hlast : p.lastSpVoleSize ≤ 2 ^ 30) (hc : p.mpVoleSize ≤ c.length)
    (ha : p.mpVoleSize ≤ a.length) (hb : p.mpVoleSize ≤ b.length) :
    Completes (sender.send T V.gf V.mem s seed c fixedIndex)
      (receiver.recv T V.gf V.mem r syncSeed a b fixedIndex)
      fun x y => MpVoleRelated V.gf.modulo p delta preA x.2 y.2.1 y.2.2 := by
  have hfixed : V.memLaws.FixedOk p := by
    cases V
    · exact hlast
    · trivial
    · trivial
  have h := mpVole_session T V.gf hots hlen hindex hbin hchoice seed V.memLaws
    V.mem_ignoresIndexes ht (fun _ => hfixed) hsender hreceiver hbase syncSeed hc ha hb
  rw [hmal] at h
  exact Session.completes (h.imp id fun h => absurd h.1 Bool.false_ne_true)

include hots hlen hindex hbin hchoice hbase hsender hreceiver in
/-- **Multi-point vector OLE.** For all types and all parameters with bins smaller than `2 ^ 31`,
with chosen or fixed indexes, in the semi-honest or the malicious mode: whenever both parties
return, `c = a * delta + b` in the field at every position, and `a` has the entries of `preA` at the
indexes and zeros elsewhere. -/
theorem mpVole_partiallyCorrect :
    PartiallyCorrect (sender.send T V.gf V.mem s seed c fixedIndex)
      (receiver.recv T V.gf V.mem r syncSeed a b fixedIndex)
      fun x y => MpVoleRelated V.gf.modulo p delta preA x.2 y.2.1 y.2.2 := by
  obtain ⟨-, hs⟩ := MpVoleSender.oneTimeSetup_eq hsender
  obtain ⟨-, -, hr⟩ := MpVoleReceiver.oneTimeSetup_eq hreceiver
  have hps : sender.param = p.withIndexes l := by rw [hs]
  have hpr : receiver.param = p := by rw [hr]
  -- A party that cannot go on never returns.
  by_cases hc : p.mpVoleSize ≤ c.length
  swap
  · refine partiallyCorrect_of_neverReturns (.inl ?_)
    refine neverReturns_bind _ fun _ => neverReturns_bind _ fun _ => NeverReturns.bind ?_ _
    exact neverReturns_enforce (hps ▸ hc)
  by_cases ha : p.mpVoleSize ≤ a.length
  swap
  · refine partiallyCorrect_of_neverReturns (.inr ?_)
    refine neverReturns_bind _ fun _ => neverReturns_bind _ fun _ => NeverReturns.bind ?_ _
    exact neverReturns_enforce (hpr ▸ ha)
  by_cases hb : p.mpVoleSize ≤ b.length
  swap
  · refine partiallyCorrect_of_neverReturns (.inr ?_)
    refine neverReturns_bind _ fun _ => neverReturns_bind _ fun _ => neverReturns_bind _ fun _ =>
      NeverReturns.bind ?_ _
    exact neverReturns_enforce (hpr ▸ hb)
  by_cases hgood : p.noiseNum < 2 ^ 32 ∧ (fixedIndex = true → V.memLaws.FixedOk p)
  · exact (mpVole_session T V.gf hots hlen hindex hbin hchoice seed V.memLaws V.mem_ignoresIndexes
      hgood.1 hgood.2 hsender hreceiver hbase syncSeed hc ha hb).partiallyCorrect
  · refine partiallyCorrect_of_neverReturns (.inr ?_)
    refine neverReturns_bind _ fun _ => neverReturns_bind _ fun _ => neverReturns_bind _ fun _ =>
      neverReturns_bind _ fun _ => NeverReturns.bind ?_ _
    rcases Nat.lt_or_ge p.noiseNum (2 ^ 32) with ht | ht
    · rw [not_and, Classical.not_imp] at hgood
      obtain ⟨rfl, hfixed⟩ := hgood ht
      obtain ⟨e, he⟩ := VoleTypes.allocFixed_of_not hbin hfixed b
      rw [MpVoleReceiver.mpfss, if_pos rfl, hpr]
      refine neverReturns_bind _ fun _ => neverReturns_bind _ fun _ =>
        neverReturns_bind _ fun _ => ?_
      rw [bind_of_error he]
      trivial
    · exact MpVoleReceiver.mpfss_neverReturns T (hpr ▸ ht) r b fixedIndex

/-- Two bins, in the malicious mode. -/
def mpFssParamMal : MpFssParam :=
  ⟨2, 5, .regularNoise, [1, 2], true, rfl, mpFssParamFive.noiseNum_pos,
    mpFssParamFive.spVoleSize_gt, mpFssParamFive.mpVoleSize_lt⟩

/-- Fixed indexes over the field with `2 ^ 64` elements, with the correlation `1` and the base
vector OLEs `1 = 1 * 1 + 0`. -/
theorem mpVole_partiallyCorrect_mal : ∃ r s sender receiver, MpfssOts mpFssParamMal r s ∧
    (MpVoleSender.make mpFssParamMal).oneTimeSetup 1 [1, 1, 0] = .ok sender ∧
    (MpVoleReceiver.make mpFssParamMal).oneTimeSetup [1, 1, 0] [0, 0, 0] = .ok receiver ∧
    PartiallyCorrect
      (sender.send default voleGf64 mpfssMem64 s (fun _ => 0) (List.replicate 5 0) true)
      (receiver.recv default voleGf64 mpfssMem64 r 0 (List.replicate 5 0) (List.replicate 5 0) true)
      fun x y => MpVoleRelated kGfMod64 mpFssParamMal 1 [1, 1, 0] x.2 y.2.1 y.2.2 := by
  obtain ⟨c, hc, -⟩ := mpFssParamMal.genChoices_eq rfl (by decide)
  obtain ⟨r, s, hots, hchoice⟩ := exists_mpfssOts mpFssParamMal c.bit
  obtain ⟨sender, hsender⟩ : ∃ sender,
      (MpVoleSender.make (mpFssParamMal.withIndexes [1, 2])).oneTimeSetup (1 : BitVec (8 * 8))
        [1, 1, 0] = .ok sender := ⟨_, rfl⟩
  obtain ⟨receiver, hreceiver⟩ : ∃ receiver, (MpVoleReceiver.make mpFssParamMal).oneTimeSetup
      [(1 : BitVec (8 * 8)), 1, 0] [(0 : BitVec (8 * 8)), 0, 0] = .ok receiver := ⟨_, rfl⟩
  have hone :
      elem kGfMod64 1#64 = elem kGfMod64 1#64 * elem kGfMod64 1#64 + elem kGfMod64 0#64 := by
    have h : elem kGfMod64 1#64 = 1 := elem_one _ (by omega)
    rw [h, elem_zero, mul_one, add_zero]
  refine ⟨r, s, sender, receiver, hots, hsender, hreceiver,
    mpVole_partiallyCorrect default .f64 hots rfl (by decide) (by decide)
      (fun _ => ⟨c, hc, hchoice⟩) (fun i hi => ?_) hsender hreceiver _ _ _ _ _⟩
  have hi : i < 2 := hi
  interval_cases i
  · exact hone
  · exact hone

end Correct

end Yacl.Crypto
