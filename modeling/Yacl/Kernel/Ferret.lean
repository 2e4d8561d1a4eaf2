import Yacl.Base.SecParam
import Yacl.Kernel.FerretRn
import Yacl.Kernel.LinearCode

/-!
# Ferret OT extension

The model of `yacl/kernel/algorithms/ferret_ote.cc`. A batch runs a multi-point COT for the noise
and adds the code words of the seed to it. The last entries of a batch that is not the last one are
not part of the output: they are the seed and the transfers of the next batch.

The first batch is **bootstrapped** from the base transfers. Its transfers and its seed are two
slices at the beginning of their buffer (`ferretSlices`).

The two overloads of each program write into a store of the caller and return a new one; they share
the sizes, the slices and the loop over the batches.
-/

open Loop TwoParty Proc Yacl.Math

namespace Yacl.Crypto

/-! ### Parameters -/

/-- `FerretCotHelper`, which does not use `ot_num`. -/
def ferretCotHelper (lpnParam : LpnParam) (mal : Bool) : Except Exception ℕ := do
  let mpcotCot ← match lpnParam.noiseAsm with
    | .regularNoise => mpCotRNHelper lpnParam.t lpnParam.n false
    | .uniformNoise => throw (.runtimeError "Not Implemented!")
  let checkCot := if mal then 128 else 0
  pure ((lpnParam.k + mpcotCot + checkCot) % 2 ^ 64)

/-- The first checks of all programs, for base transfers of the given type and number. -/
def ferretCheck (type : OtStoreType) (size : ℕ) (lpnParam : LpnParam) (otNum : ℕ) :
    Except Exception Unit := do
  enforce (worldSize = 2) "ctx->WorldSize() == 2" ""
  enforce (type = .compact) "base_cot.Type() == OtStoreType::Compact" ""
  let cotNum ← ferretCotHelper lpnParam false
  enforce (size ≥ cotNum) "base_cot.Size() >= FerretCotHelper(lpn_param, ot_num)" ""
  let limit := 2 * lpnParam.t % 2 ^ 64
  enforce (otNum ≥ limit) "ot_num >= 2 * lpn_param.t"
    s!"ot_num is {otNum}, which should be much greater than 2 * lpn_param.t ({limit})"

/-- The constants that all programs compute. -/
structure FerretSizes where
  /-- `mpcot_cot_num`. -/
  mpcotCotNum : ℕ
  /-- `batch_size`. -/
  batchSize : ℕ
  /-- `batch_num`. -/
  batchNum : ℕ

/-- The computation of the constants, in 64 bits. -/
def ferretSizes (lpnParam : LpnParam) (otNum : ℕ) (mal : Bool) : Except Exception FerretSizes := do
  let mpcotCotNum ← mpCotRNHelper lpnParam.t lpnParam.n mal
  let cacheSize := (lpnParam.k + mpcotCotNum) % 2 ^ 64
  let batchSize := sub64 lpnParam.n cacheSize
  definedIf (batchSize ≠ 0)
  let batchNum := (otNum + batchSize - 1) % 2 ^ 64 / batchSize
  pure ⟨mpcotCotNum, batchSize, batchNum⟩

/-- **The bootstrap.** `cot_mpcot` and `cot_seed`: two slices of the base transfers. -/
def ferretSlices {Store : Type} (slice : ℕ → ℕ → Except Exception Store) (lpnParam : LpnParam)
    (sizes : FerretSizes) : Except Exception (Store × Store) := do
  let cotMpcot ← slice 0 sizes.mpcotCotNum
  let cotSeed ← slice sizes.mpcotCotNum ((sizes.mpcotCotNum + lpnParam.k) % 2 ^ 64)
  pure (cotMpcot, cotSeed)

/-! ### The batches -/

/-- The variables of the loop. -/
structure FerretState (Store : Type) where
  /-- The span of the output. -/
  out : List Uint128
  /-- `working_v` and `working_w`: the seed. -/
  working : List Uint128
  /-- `cot_mpcot`. -/
  cotMpcot : Store

/-- The seed and the transfers of the next batch, from the output of a batch. -/
def ferretTail (lpnParam : LpnParam) (sizes : FerretSizes) (workingOut : List Uint128) :
    Except Exception (List Uint128 × List Uint128) := do
  definedIf (sizes.batchSize + lpnParam.k + sizes.mpcotCotNum ≤ workingOut.length)
  pure ((workingOut.drop sizes.batchSize).take lpnParam.k,
    (workingOut.drop (sizes.batchSize + lpnParam.k)).take sizes.mpcotCotNum)

/-- The number of transfers of batch `i`, with the seeds of the next batch. -/
def batchOtNum (lpnParam : LpnParam) (sizes : FerretSizes) (otNum i : ℕ) : ℕ :=
  min lpnParam.n (otNum - i * sizes.batchSize)

section Loop

variable (T : Tools) {Store : Type}
  (mpCot : (i idxRange : ℕ) → Store → List Uint128 → Party (List Uint128))
  (makeStore : List Uint128 → Except Exception Store) (lpnParam : LpnParam) (sizes : FerretSizes)
  (llc : LocalLinearCode) (otNum : ℕ)

/-- One batch: the multi-point COT, and the code words of the seed. The result is the piece of the
output after it. -/
def ferretBatch (i : ℕ) (st : FerretState Store) : Party (List Uint128) := do
  let batchOtNum := batchOtNum lpnParam sizes otNum i
  let workingOut ← subspan st.out (i * sizes.batchSize) batchOtNum
  let workingOut ← mpCot i batchOtNum st.cotMpcot workingOut
  llc.encode T 10 st.working workingOut

/-- The loop over the batches from batch `i` on, for at most as many iterations as the first
argument says. It ends before that when no transfers are left. -/
def ferretLoop : ℕ → ℕ → FerretState Store → Party (List Uint128)
  | 0, _, st => pure st.out
  | rest + 1, i, st => do
    let workingOut ← ferretBatch T mpCot lpnParam sizes llc otNum i st
    let out := putSubspan st.out (i * sizes.batchSize) workingOut
    if otNum - i * sizes.batchSize > batchOtNum lpnParam sizes otNum i then do
      let tail ← ferretTail lpnParam sizes workingOut
      let cotMpcot ← makeStore tail.2
      ferretLoop rest (i + 1) ⟨out, tail.1, cotMpcot⟩
    else pure out

end Loop

/-! ### The programs -/

/-- The random numbers that the sender draws. -/
structure FerretRandom where
  /-- The seed of the code. -/
  seed : Uint128
  /-- The seeds of the trees, for every batch and every bin. -/
  spcot : ℕ → ℕ → Uint128
  /-- The seeds of the checks of the malicious mode. -/
  check : ℕ → Uint128

instance : Inhabited FerretRandom := ⟨⟨0, fun _ _ => 0, fun _ => 0⟩⟩

/-- `GetBlkBufSpan` of a sender's store. -/
def OtSendStore.getBlkBufSpan (s : OtSendStore) : Except Exception (List Uint128) := do
  enforce (s.isSliced = false) "!IsSliced()" ""
  pure (s.blkBuf.take s.bufSize)

/-- A sender's store after its buffer was written through the span. -/
def OtSendStore.withBlkBufSpan (s : OtSendStore) (span : List Uint128) : OtSendStore :=
  { s with
    blkBuf := putSubspan s.blkBuf 0 span
    bufSize_le := (length_overwrite ..).symm ▸ s.bufSize_le }

/-- `GetBlkBufSpan` of a receiver's store. -/
def OtRecvStore.getBlkBufSpan (s : OtRecvStore) : Except Exception (List Uint128) := do
  enforce (s.isSliced = false) "!IsSliced()" ""
  pure (s.blkBuf.take s.bufSize)

/-- A receiver's store after its buffer was written through the span. -/
def OtRecvStore.withBlkBufSpan (s : OtRecvStore) (span : List Uint128) : OtRecvStore :=
  { s with
    blkBuf := putSubspan s.blkBuf 0 span
    bufSize_le := (length_overwrite ..).symm ▸ s.bufSize_le
    bitBuf_size := (length_overwrite ..).symm ▸ s.bitBuf_size }

section Programs

variable (T : Tools) (lpnParam : LpnParam) (otNum : ℕ) (mal : Bool)

/-- The multi-point COT of the sender for batch `i`. -/
def ferretMpCotSend (rnd : FerretRandom) (i idxRange : ℕ) (cotMpcot : OtSendStore)
    (workingS : List Uint128) : Party (List Uint128) :=
  match lpnParam.noiseAsm with
  | .regularNoise =>
    mpCotRNSend T (rnd.spcot i) (rnd.check i) cotMpcot idxRange lpnParam.t (lpnParam.n / lpnParam.t)
      workingS mal
  | .uniformNoise => .throw (.runtimeError "Not Implemented!")

/-- The multi-point COT of the receiver. -/
def ferretMpCotRecv (_ idxRange : ℕ) (cotMpcot : OtRecvStore) (workingR : List Uint128) :
    Party (List Uint128) :=
  match lpnParam.noiseAsm with
  | .regularNoise =>
    mpCotRNRecv T cotMpcot idxRange lpnParam.t (lpnParam.n / lpnParam.t) workingR mal
  | .uniformNoise => .throw (.runtimeError "Not Implemented!")

/-- The sender's loop over all batches. -/
def ferretExpandSend (rnd : FerretRandom) (sizes : FerretSizes) (llc : LocalLinearCode)
    (delta : Uint128) (st : FerretState OtSendStore) : Party (List Uint128) :=
  ferretLoop T (ferretMpCotSend T lpnParam mal rnd) (makeCompactOtSendStore · delta) lpnParam sizes
    llc otNum sizes.batchNum 0 st

/-- The receiver's loop over all batches. -/
def ferretExpandRecv (sizes : FerretSizes) (llc : LocalLinearCode) (st : FerretState OtRecvStore) :
    Party (List Uint128) :=
  ferretLoop T (ferretMpCotRecv T lpnParam mal) makeCompactOtRecvStore lpnParam sizes llc otNum
    sizes.batchNum 0 st

/-- `FerretOtExtSend` into a store; the result is the store after the call. -/
def ferretOtExtSendInto (rnd : FerretRandom) (baseCot out : OtSendStore) : Party OtSendStore := do
  ferretCheck baseCot.type baseCot.size lpnParam otNum
  enforce (out.type = .compact) "out->Type() == OtStoreType::Compact" ""
  enforce (out.size = otNum) "out->Size() == ot_num" ""
  let sizes ← ferretSizes lpnParam otNum mal
  let delta ← baseCot.getDelta
  let out ← out.setDelta delta
  let cots ← ferretSlices baseCot.slice lpnParam sizes
  let workingV ← cots.2.copyCotBlkBuf
  let seed ← syncSeedSend T rnd.seed
  let llc ← LocalLinearCode.make seed lpnParam.k
  let outSpan ← out.getBlkBufSpan
  let outSpan ←
    ferretExpandSend T lpnParam otNum mal rnd sizes llc delta ⟨outSpan, workingV, cots.1⟩
  pure (out.withBlkBufSpan outSpan)

/-- `FerretOtExtRecv` into a store. -/
def ferretOtExtRecvInto (baseCot out : OtRecvStore) : Party OtRecvStore := do
  ferretCheck baseCot.type baseCot.size lpnParam otNum
  enforce (out.type = .compact) "out->Type() == OtStoreType::Compact" ""
  enforce (out.size = otNum) "out->Size() == ot_num" ""
  let sizes ← ferretSizes lpnParam otNum mal
  let cots ← ferretSlices baseCot.slice lpnParam sizes
  let seed ← syncSeedRecv T
  let llc ← LocalLinearCode.make seed lpnParam.k
  let outSpan ← out.getBlkBufSpan
  let outSpan ← ferretExpandRecv T lpnParam otNum mal sizes llc ⟨outSpan, cots.2.copyBlkBuf, cots.1⟩
  pure (out.withBlkBufSpan outSpan)

/-- The checks, the sizes and the slices of the sender before the first message, for the overload
that returns a new store. -/
def ferretBootstrapSend (baseCot : OtSendStore) :
    Except Exception (FerretSizes × Uint128 × OtSendStore × OtSendStore) := do
  ferretCheck baseCot.type baseCot.size lpnParam otNum
  let sizes ← ferretSizes lpnParam otNum mal
  let delta ← baseCot.getDelta
  let cots ← ferretSlices baseCot.slice lpnParam sizes
  pure (sizes, delta, cots)

/-- The same of the receiver. -/
def ferretBootstrapRecv (baseCot : OtRecvStore) :
    Except Exception (FerretSizes × OtRecvStore × OtRecvStore) := do
  ferretCheck baseCot.type baseCot.size lpnParam otNum
  let sizes ← ferretSizes lpnParam otNum mal
  let cots ← ferretSlices baseCot.slice lpnParam sizes
  pure (sizes, cots)

/-- `FerretOtExtSend`, with what is in the memory of the new vector `out`. -/
def ferretOtExtSend (rnd : FerretRandom) (memory : ℕ → Uint128) (baseCot : OtSendStore) :
    Party OtSendStore := do
  let (sizes, delta, cotMpcot, cotSeed) ← ferretBootstrapSend lpnParam otNum mal baseCot
  let workingV ← cotSeed.copyCotBlkBuf
  let seed ← syncSeedSend T rnd.seed
  let llc ← LocalLinearCode.make seed lpnParam.k
  let out := (List.range otNum).map memory
  let out ← ferretExpandSend T lpnParam otNum mal rnd sizes llc delta ⟨out, workingV, cotMpcot⟩
  makeCompactOtSendStore out delta

/-- `FerretOtExtRecv`. -/
def ferretOtExtRecv (memory : ℕ → Uint128) (baseCot : OtRecvStore) : Party OtRecvStore := do
  let (sizes, cotMpcot, cotSeed) ← ferretBootstrapRecv lpnParam otNum mal baseCot
  let seed ← syncSeedRecv T
  let llc ← LocalLinearCode.make seed lpnParam.k
  let out := (List.range otNum).map memory
  let out ← ferretExpandRecv T lpnParam otNum mal sizes llc ⟨out, cotSeed.copyBlkBuf, cotMpcot⟩
  makeCompactOtRecvStore out

end Programs

/-! ### One bin with the default parameter -/

section Default

variable {cache : OtSendStore} (htype : cache.type = .compact) (hdelta : cache.delta ≠ 0)
  (h64 : cache.useSize < 2 ^ 64) (hsize : 468640 ≤ cache.size)

include htype hdelta h64 hsize

theorem ferretBootstrapSend_eq_ok {otNum : ℕ} (hlow : 2560 ≤ otNum) (hup : otNum ≤ 8192) :
    ∃ cotMpcot cotSeed, ferretBootstrapSend .getDefault otNum false cache =
        .ok (⟨16640, 10017120, 1⟩, cache.delta, cotMpcot, cotSeed) ∧
      cache.slice 0 16640 = .ok cotMpcot ∧ cache.slice 16640 468640 = .ok cotSeed ∧
      cotMpcot.size = 16640 ∧ cotMpcot.delta = cache.delta := by
  obtain ⟨s, hs, hssize, hsdelta, -⟩ :=
    OtSendStore.slice_eq hdelta (b := 0) (e := 16640) (by omega) (by omega) h64
  obtain ⟨s', hs', -⟩ :=
    OtSendStore.slice_eq hdelta (b := 16640) (by omega) hsize h64
  refine ⟨s, s', ?_, hs, hs', hssize, hsdelta⟩
  have hcheck : ferretCheck cache.type cache.size .getDefault otNum = .ok () := by
    have hhelper : ferretCotHelper .getDefault false = .ok 468640 := by decide +kernel
    rw [ferretCheck, enforce_bind htype, hhelper, ok_bind, enforce_bind hsize]
    exact enforce_of_pos hlow _ _
  have hsizes : ferretSizes .getDefault otNum false = .ok ⟨16640, 10017120, 1⟩ := by
    have hhelper : mpCotRNHelper 1280 10485760 false = .ok 16640 := by decide +kernel
    refine (congrArg (· >>= _) hhelper).trans ?_
    rw [ok_bind]
    have hbatch : sub64 10485760 ((452000 + 16640) % 2 ^ 64) = 10017120 := by decide +kernel
    dsimp only [LpnParam.getDefault]
    rw [hbatch]
    have hnum : (otNum + 10017120 - 1) % 2 ^ 64 / 10017120 = 1 := by omega
    rw [hnum]
    rfl
  rw [ferretBootstrapSend, hcheck, ok_bind, hsizes, ok_bind, OtSendStore.getDelta_eq hdelta,
    ok_bind, ferretSlices]
  rw [hs, ok_bind]
  refine (congrArg (· >>= _) (congrArg (· >>= _) hs')).trans ?_
  rfl

theorem ferretOtExtSend_returns (T : Tools) {otNum : ℕ} (hlow : 2560 ≤ otNum) (hup : otNum ≤ 8192)
    (rnd : FerretRandom) (memory : ℕ → Uint128) :
    ∃ res, (ferretOtExtSend T .getDefault otNum false rnd memory cache).Returns res := by
  obtain ⟨s, s', hboot, hs, hs', hssize, hsdelta⟩ :=
    ferretBootstrapSend_eq_ok htype hdelta h64 hsize hlow hup
  have hstype : s.type = .compact := (OtSendStore.of_init hs).2.1.trans htype
  obtain ⟨working, hworking, hlen⟩ :=
    OtSendStore.exists_copyCotBlkBuf htype (show 16640 + 452000 < 2 ^ 64 by omega) hs'
  obtain ⟨llc, hllc, hk, hfits⟩ := LocalLinearCode.make_eq_ok rnd.seed
    (show 0 < 452000 by omega) (by omega)
  obtain ⟨span, hspan, hspanLen⟩ :=
    subspan_eq (show 0 + otNum ≤ ((List.range otNum).map memory).length by simp)
  obtain ⟨noise, hnoise, hnoiseLen⟩ := mpCotRNSend_returns T hstype (hsdelta ▸ hdelta)
    (by rw [OtSendStore.useSize_eq_size hstype]; omega) (by omega)
    (by omega) hup (show 1 ≤ 1280 by omega)
    ((ceilLog2_le (by omega) (show otNum ≤ 2 ^ 13 from hup)).trans (by omega)) (rnd.spcot 0)
    (rnd.check 0) hspanLen
  obtain ⟨code, hcode⟩ : ∃ code, llc.encode T 10 working noise = .ok code :=
    ⟨_, LocalLinearCode.encode_eq T hfits (hlen.trans hk.symm)
      (by rw [hnoiseLen, kLcBatchSize]; omega)⟩
  have hmin : batchOtNum .getDefault ⟨16640, 10017120, 1⟩ otNum 0 = otNum := by
    rw [batchOtNum, LpnParam.getDefault]
    dsimp only
    omega
  have hbatch : (ferretBatch T (ferretMpCotSend T .getDefault false rnd) .getDefault
      ⟨16640, 10017120, 1⟩ llc otNum 0
      ⟨(List.range otNum).map memory, working, s⟩).Returns code := by
    rw [ferretBatch, hmin]
    exact (returns_of_ok hspan).bind (hnoise.bind (returns_of_ok hcode))
  obtain ⟨out, hput, hout⟩ :
      ∃ out, putSubspan ((List.range otNum).map memory) 0 code = out ∧ out.length = otNum :=
    ⟨_, rfl, by rw [putSubspan, length_overwrite, List.length_map, List.length_range]⟩
  obtain ⟨res, hres, -⟩ :=
    makeCompactOtSendStore_eq (show 0 < out.length by omega) (by omega) hdelta
  refine ⟨res, ?_⟩
  refine (returns_of_ok hboot).bind ((returns_of_ok hworking).bind ?_)
  refine Returns.bind (.send _ (.ret rnd.seed)) ((returns_of_ok hllc).bind ?_)
  refine Returns.bind ?_ (returns_of_ok hres)
  refine hbatch.bind ?_
  rw [Nat.zero_mul, if_neg (by omega), hput]
  exact .ret _

end Default

end Yacl.Crypto
