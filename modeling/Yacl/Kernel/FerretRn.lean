import Yacl.Kernel.Gywz
import Yacl.Math.GaloisField

/-!
# Multi-point COT with regular noise

The model of `yacl/kernel/algorithms/ferret_ote_rn.h`. The range of the indexes is cut into bins,
and every bin runs one single-point COT over its own slice of the base transfers. A last bin with
one entry runs none: its entry is a block of the base transfers. In the malicious mode 128 more
transfers mask a check of all bins.

The slices of the bins and of the check lie one after the other, each as long as the height of its
tree. The tree of a single entry has height zero, but its bin reads a transfer all the same, so
that **the first mask of the check is that transfer** (`mpCotRN_disjoint_iff`).
-/

open Loop TwoParty Proc Tiling Yacl.Math

namespace Yacl.Crypto

/-! ### Bins -/

/-- `MpCotRNHelper`: the number of transfers of `MpCotRNSend` and `MpCotRNRecv`. -/
def mpCotRNHelper (idxNum idxRange : ℕ) (mal : Bool) : Except Exception ℕ := do
  definedIf (idxNum ≠ 0)
  let batchSize := (idxRange + idxNum - 1) % 2 ^ 64 / idxNum
  let lastSize := sub64 idxRange (batchSize * (idxNum - 1) % 2 ^ 64)
  let checkSize := if mal then 128 else 0
  pure (((← log2Ceil batchSize) * (idxNum - 1) + (← log2Ceil lastSize) + checkSize) % 2 ^ 64)

/-- The sizes that both programs compute first. -/
structure MpCotParam where
  /-- `batch_size`: the size of a bin. -/
  batchSize : ℕ
  /-- `batch_num`: the number of bins. -/
  batchNum : ℕ
  /-- `last_size`: the size of the last bin. -/
  lastSize : ℕ
  /-- `batch_length`: the number of transfers of a bin. -/
  batchLength : ℕ
  /-- `last_length`: the number of transfers of the last bin. -/
  lastLength : ℕ

namespace MpCotParam

/-- The first lines of both programs. -/
def make (idxRange idxNum spcotSize : ℕ) : Except Exception MpCotParam := do
  definedIf (idxRange = 0 ∨ spcotSize ≠ 0)
  let batchNum := divCeil idxRange spcotSize
  enforce (batchNum ≤ idxNum) "batch_num <= idx_num" ""
  enforce (batchNum ≥ 1) "batch_num >= 1" ""
  let lastSize := idxRange - (batchNum - 1) * spcotSize
  let batchLength ← log2Ceil spcotSize
  let lastLength ← log2Ceil lastSize
  pure ⟨spcotSize, batchNum, lastSize, batchLength, lastLength⟩

variable {α : Type} (p : MpCotParam) (slice : ℕ → ℕ → Except Exception α)

/-- `cot.Slice` for bin `i`, one of the bins before the last one. -/
def binSlice (i : ℕ) : Except Exception α :=
  slice (i * p.batchLength) (i * p.batchLength + p.batchLength)

/-- `cot.Slice` for the last bin. -/
def lastSlice : Except Exception α :=
  slice ((p.batchNum - 1) * p.batchLength) ((p.batchNum - 1) * p.batchLength + p.lastLength)

/-- `cot.Slice` for the consistency check. -/
def checkSlice : Except Exception α :=
  slice (p.batchLength * (p.batchNum - 1) + p.lastLength)
    (p.batchLength * (p.batchNum - 1) + p.lastLength + 128)

end MpCotParam

/-! ### The two programs -/

/-- `output` written back to where `out.subspan(pos, size)` has taken it from. -/
def putSubspan (out : List Uint128) (pos : ℕ) (output : List Uint128) : List Uint128 :=
  overwrite out pos output.length fun i => output.getD i 0

section Programs

variable (T : Tools)

/-- `GywzOtExtSend_ferret` for `out.subspan(pos, size)`; the size is passed in 32 bits. -/
def spCotSend (seed : Uint128) (cotSlice : OtSendStore) (size pos : ℕ) (out : List Uint128) :
    Party (List Uint128) := do
  let output ← subspan out pos size
  let output ← gywzOtExtSendFerret T seed cotSlice (size % 2 ^ 32) output
  pure (putSubspan out pos output)

/-- `GywzOtExtRecv_ferret` for `out.subspan(pos, size)`. -/
def spCotRecv (cotSlice : OtRecvStore) (size pos : ℕ) (out : List Uint128) :
    Party (List Uint128) := do
  let output ← subspan out pos size
  let output ← gywzOtExtRecvFerret T cotSlice (size % 2 ^ 32) output
  pure (putSubspan out pos output)

/-- The sender's consistency check, with the seed that it draws. -/
def mpCotCheckSend (syncSeed : Uint128) (cot : OtSendStore) (p : MpCotParam)
    (out : List Uint128) : Party Unit := do
  let checkCot ← p.checkSlice cot.slice
  let seed ← syncSeedSend T syncSeed
  let uhash := universalHash gf128Mul seed out
  let recvBuf ← recv
  let choices ← T.deserializeUint128 recvBuf
  let checkCotData ← ((List.range 128).mapM fun i =>
    checkCot.getBlock i (choices.getLsbD i).toNat : Except Exception (List Uint128))
  let diff ← gf128Pack checkCotData
  let hash := T.blake3 (T.serializeUint128 (uhash ^^^ diff))
  sendAsync (Bytes.wordBytes 32 hash)

/-- The receiver's consistency check. -/
def mpCotCheckRecv (cot : OtRecvStore) (p : MpCotParam) (out : List Uint128) : Party Unit := do
  let checkCot ← p.checkSlice cot.slice
  let seed ← syncSeedRecv T
  let uhash := universalHash gf128Mul seed out
  let choices ← vecGet (← checkCot.copyBitBuf).blocks 0
  let diff ← gf128Pack checkCot.copyBlkBuf
  -- the punctured indexes are those of the blocks whose low bit is set
  let indexes := (List.range out.length).filter fun i => (out.getD i 0).getLsbD 0
  let ceof ← extractHashCoef gf128Mul seed indexes
  let choices := ceof.foldl (fun x y => x ^^^ y) choices
  sendAsync (T.serializeUint128 choices)
  let hash := T.blake3 (T.serializeUint128 (uhash ^^^ diff))
  let buf ← recv
  enforce (Bytes.wordBytes 32 hash = buf) "ByteContainerView(hash) == ByteContainerView(buf)"
    "FerretCheck: fail"

/-- The last bin of `MpCotRNSend`. -/
def mpCotLastSend (seed : Uint128) (cot : OtSendStore) (p : MpCotParam) (out : List Uint128) :
    Party (List Uint128) :=
  if p.lastSize = 1 then do
    vecSet out ((p.batchNum - 1) * p.batchSize)
      (← cot.getBlock ((p.batchNum - 1) * p.batchLength) 0)
  else do
    let cotSlice ← p.lastSlice cot.slice
    spCotSend T seed cotSlice p.lastSize ((p.batchNum - 1) * p.batchSize) out

/-- The last bin of `MpCotRNRecv`. -/
def mpCotLastRecv (cot : OtRecvStore) (p : MpCotParam) (out : List Uint128) :
    Party (List Uint128) :=
  if p.lastSize = 1 then do
    vecSet out ((p.batchNum - 1) * p.batchSize)
      (← cot.getBlock ((p.batchNum - 1) * p.batchLength))
  else do
    let cotSlice ← p.lastSlice cot.slice
    spCotRecv T cotSlice p.lastSize ((p.batchNum - 1) * p.batchSize) out

/-- `MpCotRNSend`, with the seeds that the bins and the check draw; the result is `out` after the
call. -/
def mpCotRNSend (seed : ℕ → Uint128) (syncSeed : Uint128) (cot : OtSendStore)
    (idxRange idxNum spcotSize : ℕ) (out : List Uint128) (mal : Bool) : Party (List Uint128) := do
  let p ← MpCotParam.make idxRange idxNum spcotSize
  let out ← forLoop (p.batchNum - 1) (fun i out => do
    let cotSlice ← p.binSlice cot.slice i
    spCotSend T (seed i) cotSlice p.batchSize (i * p.batchSize) out) out
  let out ← mpCotLastSend T (seed (p.batchNum - 1)) cot p out
  if mal then do
    mpCotCheckSend T syncSeed cot p out
    pure out
  else pure out

/-- `MpCotRNRecv`. -/
def mpCotRNRecv (cot : OtRecvStore) (idxRange idxNum spcotSize : ℕ) (out : List Uint128)
    (mal : Bool) : Party (List Uint128) := do
  let p ← MpCotParam.make idxRange idxNum spcotSize
  let out ← forLoop (p.batchNum - 1) (fun i out => do
    let cotSlice ← p.binSlice cot.slice i
    spCotRecv T cotSlice p.batchSize (i * p.batchSize) out) out
  let out ← mpCotLastRecv T cot p out
  if mal then do
    mpCotCheckRecv T cot p out
    pure out
  else pure out

end Programs

variable {cot : OtSendStore} {idxRange idxNum spcotSize : ℕ}

theorem mpCotRNSend_returns (T : Tools) (htype : cot.type = .compact) (hdelta : cot.delta ≠ 0)
    (h64 : cot.useSize < 2 ^ 64) (h1 : 1 < idxRange) (h32 : idxRange < 2 ^ 32)
    (hle : idxRange ≤ spcotSize) (hnum : 1 ≤ idxNum) (hlen : ceilLog2 idxRange ≤ cot.size)
    (seed : ℕ → Uint128) (syncSeed : Uint128) {out : List Uint128} (hout : out.length = idxRange) :
    ∃ res, (mpCotRNSend T seed syncSeed cot idxRange idxNum spcotSize out false).Returns res ∧
      res.length = out.length := by
  obtain ⟨l, hl, -⟩ := ceilLog2_spec h1
  have hdiv : divCeil idxRange spcotSize = 1 := by
    rw [divCeil, if_neg (by omega), Nat.div_eq_of_lt (by omega)]
  have hmake : MpCotParam.make idxRange idxNum spcotSize =
      .ok ⟨spcotSize, 1, idxRange, ceilLog2 spcotSize, ceilLog2 idxRange⟩ := by
    rw [MpCotParam.make, definedIf_bind (.inr (by omega)), hdiv]
    rw [enforce_bind hnum, log2Ceil_eq (by omega), ok_bind, Nat.zero_mul, log2Ceil_eq (by omega)]
    rfl
  obtain ⟨s, hs, hsize, hsdelta, -⟩ :=
    OtSendStore.slice_eq hdelta (b := 0) (by omega) hlen h64
  have hstype : s.type = .compact := (OtSendStore.of_init hs).2.1.trans htype
  have huse : s.useSize = ceilLog2 idxRange := (OtSendStore.useSize_eq_size hstype).trans hsize
  obtain ⟨span, hspan, hspanLen⟩ := subspan_eq (show 0 + idxRange ≤ out.length by omega)
  obtain ⟨res, hres, -⟩ := gywzOtExtSendFerret_returns T hstype (hsdelta ▸ hdelta)
    (by rw [OtSendStore.useSize_eq_size htype] at h64; omega) h1 h32
    (by rw [hsize, Nat.sub_zero, log2Ceil_eq (by omega)]) (seed 0) hspanLen.ge
  refine ⟨putSubspan out 0 res, ?_, length_overwrite ..⟩
  rw [mpCotRNSend, hmake]
  refine Proc.Returns.bind (.ret _) (Proc.Returns.bind (.ret out) (Proc.Returns.bind ?_ (.ret _)))
  rw [mpCotLastSend, if_neg (by dsimp only; omega), MpCotParam.lastSlice]
  rw [Nat.sub_self, Nat.zero_mul, Nat.zero_add, Nat.zero_mul]
  refine (returns_of_ok hs).bind ?_
  rw [spCotSend, Nat.mod_eq_of_lt h32]
  exact (returns_of_ok hspan).bind (hres.bind (.ret _))

/-! ### What is read of the base transfers -/

/-- What `GywzOtExtSend_ferret` reads of its slice after its checks: as many transfers as the slice
has. -/
def spCotSendUse (n : ℕ) (cot : OtSendStore) : Except Exception Piece := do
  let height ← log2Ceil n
  enforce (cot.size = height) "cot.Size() == height" ""
  enforceThat (n > 1) "n > (uint32_t)1" n 1
  enforce (cot.type = .compact) "cot.Type() == OtStoreType::Compact" ""
  let _ ← cot.getDelta
  pure cot.window

/-- What `GywzOtExtRecv_ferret` reads of its slice after its checks. -/
def spCotRecvUse (n : ℕ) (cot : OtRecvStore) : Except Exception Piece := do
  let height ← log2Ceil n
  enforce (cot.size = height) "cot.Size() == height" ""
  enforceThat (n > 1) "n > (uint32_t)1" n 1
  enforce (cot.type = .compact) "cot.Type() == OtStoreType::Compact" ""
  pure cot.window

/-- What `GetBlock(idx, 0)` of the sender's store reads. -/
def OtSendStore.blockUse (cot : OtSendStore) (idx : ℕ) : Except Exception Piece := do
  let n := if cot.delta = 0 then 2 else otBlkNum cot.type
  pure ⟨← cot.toSliceBase.getBufIdx (n * idx % 2 ^ 64), 1⟩

/-- What `GetBlock(idx)` of the receiver's store reads. -/
def OtRecvStore.blockUse (cot : OtRecvStore) (idx : ℕ) : Except Exception Piece := do
  enforce (idx < cot.useSize) "idx < GetUseSize()" ""
  pure ⟨← cot.toSliceBase.getBufIdx idx, 1⟩

section Uses

variable {α : Type} (p : MpCotParam) (slice : ℕ → ℕ → Except Exception α)
  (spCotUse : ℕ → α → Except Exception Piece) (blockUse : ℕ → Except Exception Piece)

/-- What bin `i` reads. -/
def MpCotParam.binUse (i : ℕ) : Except Exception Piece := do
  spCotUse (p.batchSize % 2 ^ 32) (← p.binSlice slice i)

/-- What the last bin reads. -/
def MpCotParam.lastUse : Except Exception Piece :=
  if p.lastSize = 1 then blockUse ((p.batchNum - 1) * p.batchLength)
  else do spCotUse (p.lastSize % 2 ^ 32) (← p.lastSlice slice)

/-- The pieces of the buffer that one call in the malicious mode reads: one for every bin, and the
last one for the check. -/
def MpCotParam.uses (window : α → Piece) : Except Exception (List Piece) := do
  let bins ← (List.range (p.batchNum - 1)).mapM (p.binUse slice spCotUse)
  let last ← p.lastUse slice spCotUse blockUse
  let check ← p.checkSlice slice
  pure (bins ++ [last, window check])

end Uses

/-- The pieces of `MpCotRNSend`. -/
def mpCotRNSendUses (cot : OtSendStore) (idxRange idxNum spcotSize : ℕ) :
    Except Exception (List Piece) := do
  let p ← MpCotParam.make idxRange idxNum spcotSize
  p.uses cot.slice spCotSendUse cot.blockUse fun s => s.window

/-- The pieces of `MpCotRNRecv`. -/
def mpCotRNRecvUses (cot : OtRecvStore) (idxRange idxNum spcotSize : ℕ) :
    Except Exception (List Piece) := do
  let p ← MpCotParam.make idxRange idxNum spcotSize
  p.uses cot.slice spCotRecvUse cot.blockUse fun s => s.window

section Accepted

variable (T : Tools) {e : Exception}

theorem spCotSend_neverReturns {size : ℕ} {cotSlice : OtSendStore}
    (h : spCotSendUse (size % 2 ^ 32) cotSlice = .error e) (seed : Uint128) (pos : ℕ)
    (out : List Uint128) : (spCotSend T seed cotSlice size pos out).NeverReturns := by
  refine neverReturns_bind _ fun output => NeverReturns.bind ?_ _
  refine neverReturns_of_error h fun height h => ?_
  refine neverReturns_of_error h fun _ h => ?_
  refine neverReturns_of_error h fun _ h => ?_
  refine neverReturns_of_error h fun _ h => ?_
  refine neverReturns_of_error h fun _ h => ?_
  contradiction

theorem spCotRecv_neverReturns {size : ℕ} {cotSlice : OtRecvStore}
    (h : spCotRecvUse (size % 2 ^ 32) cotSlice = .error e) (pos : ℕ) (out : List Uint128) :
    (spCotRecv T cotSlice size pos out).NeverReturns := by
  refine neverReturns_bind _ fun output => NeverReturns.bind ?_ _
  refine neverReturns_of_error h fun height h => ?_
  refine neverReturns_of_error h fun _ h => ?_
  refine neverReturns_of_error h fun _ h => ?_
  refine neverReturns_of_error h fun _ h => ?_
  contradiction

/-- A program that runs the bins, the last bin and the check never returns if one of them does not
get the transfers that it reads. -/
theorem MpCotParam.neverReturns_of_uses {α : Type} {p : MpCotParam}
    {slice : ℕ → ℕ → Except Exception α} {spCotUse : ℕ → α → Except Exception Piece}
    {blockUse : ℕ → Except Exception Piece} {window : α → Piece}
    (h : p.uses slice spCotUse blockUse window = .error e)
    {bin : ℕ → List Uint128 → Party (List Uint128)}
    (hbin : ∀ i e, p.binUse slice spCotUse i = .error e → ∀ out, (bin i out).NeverReturns)
    {last : List Uint128 → Party (List Uint128)}
    (hlast : ∀ e, p.lastUse slice spCotUse blockUse = .error e → ∀ out, (last out).NeverReturns)
    {check : List Uint128 → Party Unit}
    (hcheck : ∀ e, p.checkSlice slice = .error e → ∀ out, (check out).NeverReturns)
    (out : List Uint128) :
    (do
      let out ← forLoop (p.batchNum - 1) bin out
      let out ← last out
      check out
      pure out : Party (List Uint128)).NeverReturns := by
  rw [uses] at h
  cases hbins : (List.range (p.batchNum - 1)).mapM (p.binUse slice spCotUse) with
  | error e' =>
    obtain ⟨i, hi, e'', hie⟩ := of_mapM_eq_error hbins
    exact (neverReturns_forLoop (List.mem_range.1 hi) (hbin i e'' hie) out).bind _
  | ok bins =>
    rw [hbins] at h
    refine neverReturns_bind _ fun out => ?_
    cases huse : p.lastUse slice spCotUse blockUse with
    | error e' => exact (hlast e' huse out).bind _
    | ok q =>
      rw [huse] at h
      refine neverReturns_bind _ fun out => ?_
      cases hslice : p.checkSlice slice with
      | error e' => exact (hcheck e' hslice out).bind _
      | ok s =>
        rw [hslice] at h
        contradiction

theorem OtSendStore.getBlock_of_blockUse {cot : OtSendStore} {idx : ℕ}
    (h : cot.blockUse idx = .error e) : ∃ e', cot.getBlock idx 0 = .error e' := by
  rw [getBlock]
  rw [blockUse] at h
  split
  · next hdelta =>
    rw [if_pos hdelta] at h
    cases hidx : cot.toSliceBase.getBufIdx (2 * idx % 2 ^ 64) with
    | error e' => exact ⟨e', rfl⟩
    | ok i =>
      rw [hidx] at h
      contradiction
  · next hdelta =>
    rw [if_neg hdelta] at h
    cases hidx : cot.toSliceBase.getBufIdx (otBlkNum cot.type * idx % 2 ^ 64) with
    | error e' => exact ⟨e', rfl⟩
    | ok i =>
      rw [hidx] at h
      contradiction

theorem OtRecvStore.getBlock_of_blockUse {cot : OtRecvStore} {idx : ℕ}
    (h : cot.blockUse idx = .error e) : ∃ e', cot.getBlock idx = .error e' := by
  by_cases hidx : idx < cot.useSize
  · rw [blockUse, enforce_bind hidx, SliceBase.getBufIdx_eq hidx] at h
    contradiction
  · rw [getBlock, enforce_of_neg hidx]
    exact ⟨_, rfl⟩

/-- **A call of `MpCotRNSend` that returns has read its pieces.** -/
theorem mpCotRNSend_neverReturns {cot : OtSendStore} {idxRange idxNum spcotSize : ℕ}
    (h : mpCotRNSendUses cot idxRange idxNum spcotSize = .error e) (seed : ℕ → Uint128)
    (syncSeed : Uint128) (out : List Uint128) :
    (mpCotRNSend T seed syncSeed cot idxRange idxNum spcotSize out true).NeverReturns := by
  refine neverReturns_of_error h fun p h => p.neverReturns_of_uses h ?_ ?_ ?_ out
  · intro i e h out
    exact neverReturns_of_error h fun s h => spCotSend_neverReturns T h (seed i) _ out
  · intro e h out
    rw [MpCotParam.lastUse] at h
    rw [mpCotLastSend]
    split
    · next hone =>
      rw [if_pos hone] at h
      obtain ⟨e', he⟩ := OtSendStore.getBlock_of_blockUse h
      rw [he]
      trivial
    · next hone =>
      rw [if_neg hone] at h
      exact neverReturns_of_error h fun s h => spCotSend_neverReturns T h _ _ out
  · intro e h out
    rw [mpCotCheckSend, h]
    trivial

/-- **A call of `MpCotRNRecv` that returns has read its pieces.** -/
theorem mpCotRNRecv_neverReturns {cot : OtRecvStore} {idxRange idxNum spcotSize : ℕ}
    (h : mpCotRNRecvUses cot idxRange idxNum spcotSize = .error e) (out : List Uint128) :
    (mpCotRNRecv T cot idxRange idxNum spcotSize out true).NeverReturns := by
  refine neverReturns_of_error h fun p h => p.neverReturns_of_uses h ?_ ?_ ?_ out
  · intro i e h out
    exact neverReturns_of_error h fun s h => spCotRecv_neverReturns T h _ out
  · intro e h out
    rw [MpCotParam.lastUse] at h
    rw [mpCotLastRecv]
    split
    · next hone =>
      rw [if_pos hone] at h
      obtain ⟨e', he⟩ := OtRecvStore.getBlock_of_blockUse h
      rw [he]
      trivial
    · next hone =>
      rw [if_neg hone] at h
      exact neverReturns_of_error h fun s h => spCotRecv_neverReturns T h _ out
  · intro e h out
    rw [mpCotCheckRecv, h]
    trivial

end Accepted

/-! ### Disjoint uses -/

/-- The sizes, for parameters that pass the checks. -/
structure MpCotParam.Fits (p : MpCotParam) (idxRange idxNum spcotSize : ℕ) : Prop where
  idxRange_pos : 1 ≤ idxRange
  spcotSize_pos : 1 ≤ spcotSize
  batchSize_eq : p.batchSize = spcotSize
  batchNum_eq : p.batchNum = 1 + (idxRange - 1) / spcotSize
  batchNum_le : p.batchNum ≤ idxNum
  lastSize_eq : p.lastSize = 1 + (idxRange - 1) % spcotSize
  batchLength_eq : p.batchLength = ceilLog2 spcotSize
  lastLength_eq : p.lastLength = ceilLog2 p.lastSize

variable {p : MpCotParam}

theorem MpCotParam.of_make (h : make idxRange idxNum spcotSize = .ok p) :
    p.Fits idxRange idxNum spcotSize := by
  obtain ⟨_, -, h⟩ := of_bind_eq_ok h
  obtain ⟨hnum, h⟩ := of_enforce_bind h
  obtain ⟨hone, h⟩ := of_enforce_bind h
  obtain ⟨batchLength, hbatch, h⟩ := of_bind_eq_ok h
  obtain ⟨lastLength, hlast, h⟩ := of_bind_eq_ok h
  obtain ⟨hspcot, rfl⟩ := of_log2Ceil hbatch
  obtain ⟨-, rfl⟩ := of_log2Ceil hlast
  have hrange : idxRange ≠ 0 := by
    rintro rfl
    exact absurd hone (by simp [divCeil])
  rw [← Except.ok.inj h]
  rw [divCeil, if_neg hrange] at hnum ⊢
  have hdiv := Nat.div_add_mod' (idxRange - 1) spcotSize
  refine ⟨by omega, by omega, rfl, rfl, hnum, ?_, rfl, rfl⟩
  dsimp only
  rw [Nat.add_sub_cancel_left]
  omega

theorem MpCotParam.Fits.checkBegin_le (h : p.Fits idxRange idxNum spcotSize) :
    p.batchLength * (p.batchNum - 1) + p.lastLength ≤ idxRange := by
  have hspcot := h.spcotSize_pos
  have hrange := h.idxRange_pos
  have hdiv := Nat.div_add_mod (idxRange - 1) spcotSize
  have hlen : p.batchLength * (p.batchNum - 1) ≤ spcotSize * ((idxRange - 1) / spcotSize) := by
    rw [h.batchLength_eq, h.batchNum_eq, Nat.add_sub_cancel_left]
    exact Nat.mul_le_mul_right _ (ceilLog2_le_self (by omega))
  have hlast : p.lastLength ≤ p.lastSize := by
    rw [h.lastLength_eq]
    exact ceilLog2_le_self (by rw [h.lastSize_eq]; omega)
  rw [h.lastSize_eq] at hlast
  omega

theorem MpCotParam.Fits.lastLength_le (h : p.Fits idxRange idxNum spcotSize)
    (h64 : idxRange < 2 ^ 64) : p.lastLength ≤ 64 := by
  have hlast : p.lastSize ≤ idxRange := by
    have hpos := h.idxRange_pos
    have hmod := Nat.mod_le (idxRange - 1) spcotSize
    rw [h.lastSize_eq]
    omega
  rw [h.lastLength_eq]
  rcases Nat.lt_or_ge 1 p.lastSize with hlt | hge
  · exact ceilLog2_le hlt (by omega)
  · exact (ceilLog2_le_self (by rw [h.lastSize_eq]; omega)).trans (by omega)

theorem MpCotParam.Fits.batchLength_le (h : p.Fits idxRange idxNum spcotSize)
    (h64 : idxRange < 2 ^ 64) (hnum : 0 < p.batchNum - 1) : p.batchLength ≤ 64 := by
  have hspcot : spcotSize ≤ idxRange - 1 := by
    rw [h.batchNum_eq, Nat.add_sub_cancel_left] at hnum
    exact (Nat.div_pos_iff.1 hnum).2
  rw [h.batchLength_eq]
  rcases Nat.lt_or_ge 1 spcotSize with hlt | hge
  · exact ceilLog2_le hlt (by omega)
  · exact (ceilLog2_le_self (Nat.pos_iff_ne_zero.1 h.spcotSize_pos)).trans (by omega)

variable {uses : List Piece}

/-- **One transfer for two purposes.** The pieces of one call are pairwise disjoint unless the last
bin has one entry, which the check reads again when the window of the store begins at less than 128
transfers. In the buffer a transfer has `n` blocks. -/
theorem MpCotParam.pairwise_uses_iff {α : Type} {slice : ℕ → ℕ → Except Exception α}
    {spCotUse : ℕ → α → Except Exception Piece} {blockUse : ℕ → Except Exception Piece}
    {window : α → Piece} {n ctr : ℕ} (hfits : p.Fits idxRange idxNum spcotSize)
    (h64 : idxRange < 2 ^ 64)
    (hslice : ∀ b len s, b ≤ p.batchLength * (p.batchNum - 1) + p.lastLength → len ≤ 128 →
      slice b (b + len) = .ok s → window s = ⟨n * b, n * len⟩)
    (hspCot : ∀ m s q, spCotUse m s = .ok q → q = window s)
    (hblock : ∀ q, blockUse ((p.batchNum - 1) * p.batchLength) = .ok q →
      q = ⟨ctr + n * ((p.batchNum - 1) * p.batchLength), 1⟩)
    (h : p.uses slice spCotUse blockUse window = .ok uses) :
    uses.Pairwise Piece.Disjoint ↔ p.lastSize ≠ 1 ∨ n * 128 ≤ ctr := by
  obtain ⟨bins, hbins, h⟩ := of_bind_eq_ok h
  obtain ⟨last, hlast, h⟩ := of_bind_eq_ok h
  obtain ⟨check, hcheck, h⟩ := of_bind_eq_ok h
  have hbins' : Tiles 0 bins (n * (p.batchLength * (p.batchNum - 1))) := by
    have hmap := of_mapM_eq_ok (g := fun i => ⟨0 + n * p.batchLength * i, n * p.batchLength⟩)
      hbins fun i hi q hq => by
        obtain ⟨s, hs, hq⟩ := of_bind_eq_ok hq
        have hle : i * p.batchLength ≤ p.batchLength * (p.batchNum - 1) := by
          rw [Nat.mul_comm]
          exact Nat.mul_le_mul_left _ (List.mem_range.1 hi).le
        have hlen := hfits.batchLength_le h64 (Nat.zero_lt_of_lt (List.mem_range.1 hi))
        rw [hspCot _ _ _ hq, hslice _ _ _ (by omega) (by omega) hs, Nat.zero_add, Nat.mul_assoc,
          Nat.mul_comm i]
    have htiles := tiles_map_range 0 (n * p.batchLength) (p.batchNum - 1)
    rwa [← hmap, Nat.zero_add, Nat.mul_assoc] at htiles
  have hcheck' := hslice _ _ _ le_rfl le_rfl hcheck
  rw [Nat.mul_add] at hcheck'
  rw [← Except.ok.inj h, hcheck']
  rw [lastUse] at hlast
  split at hlast
  · next hone =>
    -- the last bin reads a block of the store, and the check begins where its slice would
    have hlength : p.lastLength = 0 := by rw [hfits.lastLength_eq, hone, ceilLog2, if_pos rfl]
    rw [hlength, hblock _ hlast, Nat.mul_comm (p.batchNum - 1)]
    generalize n * (p.batchLength * (p.batchNum - 1)) = x at hbins'
    have hdisjoint : (⟨ctr + x, 1⟩ : Piece).Disjoint ⟨x + n * 0, n * 128⟩ ↔ n * 128 ≤ ctr := by
      refine ⟨fun hdis => ?_, fun hle i => ?_⟩
      · have hctr := hdis (ctr + x)
        simp only [Piece.contains, Bool.and_eq_true, decide_eq_true_eq] at hctr
        omega
      · simp only [Piece.contains, Bool.and_eq_true, decide_eq_true_eq]
        omega
    have hbefore : ∀ a ∈ bins, ∀ b : Piece, x ≤ b.off → a.Disjoint b := fun a ha b hb =>
      Piece.disjoint_of_le ((hbins'.off_add_len_le ha).trans hb)
    rw [List.pairwise_append, List.pairwise_pair, hdisjoint]
    refine ⟨fun hpair => .inr hpair.2.1, fun hor => ⟨hbins'.pairwise_disjoint,
      hor.resolve_left (not_not.2 hone), fun a ha b hb => hbefore a ha b ?_⟩⟩
    rcases List.mem_pair.1 hb with rfl | rfl
    · exact Nat.le_add_left x ctr
    · exact Nat.le_add_right x _
  · next hone =>
    obtain ⟨s, hs, hlast⟩ := of_bind_eq_ok hlast
    have hlen := hfits.lastLength_le h64
    rw [hspCot _ _ _ hlast, hslice _ _ _ (by rw [Nat.mul_comm]; omega) (by omega) hs,
      Nat.mul_comm (p.batchNum - 1)]
    refine iff_of_true ?_ (.inl hone)
    generalize n * (p.batchLength * (p.batchNum - 1)) = x at hbins'
    have htail : Tiles x [⟨x, n * p.lastLength⟩, ⟨x + n * p.lastLength, n * 128⟩]
        (x + n * p.lastLength + n * 128) := ⟨rfl, rfl, rfl⟩
    exact (hbins'.append htail).pairwise_disjoint

theorem OtRecvStore.window_of_slice {cot s : OtRecvStore} {b len : ℕ} (hlen : len < 2 ^ 64)
    (h : cot.slice b (b + len) = .ok s) : s.window = ⟨b, len⟩ := by
  obtain ⟨⟨huse, hsize, -⟩, -⟩ := of_init h
  rw [SliceBase.window, hsize, sub64]
  congr 1
  omega

theorem OtSendStore.window_of_slice {s : OtSendStore} {b len : ℕ} (hlen : 2 * len < 2 ^ 64)
    (hb : otBlkNum cot.type * b < 2 ^ 64) (h : cot.slice b (b + len) = .ok s) :
    s.window = ⟨otBlkNum cot.type * b, otBlkNum cot.type * len⟩ := by
  obtain ⟨⟨huse, hsize, -⟩, -⟩ := of_init h
  have hsub : sub64 (b + len) b = len := by
    rw [sub64]
    omega
  have hle : otBlkNum cot.type * len ≤ 2 * len :=
    Nat.mul_le_mul_right len (by rw [otBlkNum]; split <;> omega)
  rw [SliceBase.window, huse, hsize, hsub, Nat.mul_comm b, Nat.mul_comm len, Nat.mod_eq_of_lt hb,
    Nat.mod_eq_of_lt (by omega)]

theorem window_of_spCotSendUse {m : ℕ} {s : OtSendStore} {q : Piece}
    (h : spCotSendUse m s = .ok q) : q = s.window ∧ s.type = .compact ∧ s.delta ≠ 0 := by
  obtain ⟨height, -, h⟩ := of_bind_eq_ok h
  obtain ⟨-, h⟩ := of_enforce_bind h
  obtain ⟨-, h⟩ := of_enforce_bind h
  obtain ⟨htype, h⟩ := of_enforce_bind h
  obtain ⟨_, hdelta, h⟩ := of_bind_eq_ok h
  exact ⟨(Except.ok.inj h).symm, htype, (of_enforce_bind hdelta).1⟩

theorem window_of_spCotRecvUse {m : ℕ} {s : OtRecvStore} {q : Piece}
    (h : spCotRecvUse m s = .ok q) : q = s.window := by
  obtain ⟨height, -, h⟩ := of_bind_eq_ok h
  obtain ⟨-, h⟩ := of_enforce_bind h
  obtain ⟨-, h⟩ := of_enforce_bind h
  obtain ⟨-, h⟩ := of_enforce_bind h
  exact (Except.ok.inj h).symm

theorem mpCotRNRecvUses_pairwise_iff {cot : OtRecvStore} (h64 : idxRange < 2 ^ 64)
    (h : mpCotRNRecvUses cot idxRange idxNum spcotSize = .ok uses) :
    uses.Pairwise Piece.Disjoint ↔ (idxRange - 1) % spcotSize ≠ 0 ∨ 128 ≤ cot.useCtr := by
  obtain ⟨p, hp, h⟩ := of_bind_eq_ok h
  have hfits := MpCotParam.of_make hp
  rw [MpCotParam.pairwise_uses_iff (n := 1) hfits h64 ?_ ?_ ?_ h, hfits.lastSize_eq]
  · rw [Nat.add_comm, ne_eq, Nat.succ_inj]
  · intro b len s _ hlen hs
    rw [OtRecvStore.window_of_slice (by omega) hs, Nat.one_mul, Nat.one_mul]
  · exact fun _ _ _ => window_of_spCotRecvUse
  · intro q hq
    obtain ⟨-, hq⟩ := of_enforce_bind hq
    obtain ⟨i, hi, hq⟩ := of_bind_eq_ok hq
    rw [← Except.ok.inj hq, (SliceBase.of_getBufIdx hi).2, Nat.one_mul]

/-- A store whose bins were read is compact, unless there is only one bin and it has one entry. -/
theorem compact_of_sendUses
    (h : p.uses cot.slice spCotSendUse cot.blockUse (fun s => s.window) = .ok uses) :
    (cot.type = .compact ∧ cot.delta ≠ 0) ∨ p.batchNum - 1 = 0 ∧ p.lastSize = 1 := by
  have hslice : ∀ m b e q, (cot.slice b e >>= spCotSendUse m) = .ok q →
      cot.type = .compact ∧ cot.delta ≠ 0 := by
    intro m b e q hq
    obtain ⟨s, hs, hq⟩ := of_bind_eq_ok hq
    obtain ⟨-, htype, hdelta, -⟩ := OtSendStore.of_init hs
    rw [← htype, ← hdelta]
    exact (window_of_spCotSendUse hq).2
  obtain ⟨bins, hbins, h⟩ := of_bind_eq_ok h
  obtain ⟨last, hlast, -⟩ := of_bind_eq_ok h
  rcases Nat.eq_zero_or_pos (p.batchNum - 1) with hnum | hnum
  · rw [MpCotParam.lastUse] at hlast
    split at hlast
    · next hone => exact .inr ⟨hnum, hone⟩
    · exact .inl (hslice _ _ _ _ hlast)
  · cases hbin : p.binUse cot.slice spCotSendUse 0 with
    | ok q => exact .inl (hslice _ _ _ _ hbin)
    | error e =>
      obtain ⟨m, hm⟩ := Nat.exists_eq_add_of_lt hnum
      rw [hm, List.range_succ_eq_map, List.mapM_cons, hbin] at hbins
      contradiction

theorem mpCotRNSendUses_pairwise_iff (h64 : idxRange < 2 ^ 64)
    (h : mpCotRNSendUses cot idxRange idxNum spcotSize = .ok uses) :
    uses.Pairwise Piece.Disjoint ↔ (idxRange - 1) % spcotSize ≠ 0 ∨
      OtSendStore.otBlkNum cot.type * 128 ≤ cot.useCtr := by
  obtain ⟨p, hp, h⟩ := of_bind_eq_ok h
  have hfits := MpCotParam.of_make hp
  have hbegin := hfits.checkBegin_le
  have hcompact := compact_of_sendUses h
  -- the offsets of the slices do not overflow, since they count blocks of a compact store or are 0
  have hoverflow : ∀ b ≤ p.batchLength * (p.batchNum - 1) + p.lastLength,
      OtSendStore.otBlkNum cot.type * b < 2 ^ 64 := by
    intro b hb
    rcases hcompact with ⟨htype, -⟩ | ⟨hnum, hone⟩
    · rw [OtSendStore.otBlkNum, if_pos htype]
      omega
    · rw [hnum, hfits.lastLength_eq, hone] at hb
      rw [Nat.le_zero.1 hb]
      exact Nat.two_pow_pos 64
  rw [MpCotParam.pairwise_uses_iff hfits h64 ?_ ?_ ?_ h, hfits.lastSize_eq]
  · rw [Nat.add_comm, ne_eq, Nat.succ_inj]
  · intro b len s hb hlen hs
    exact OtSendStore.window_of_slice (by omega) (hoverflow b hb) hs
  · exact fun _ _ _ hq => (window_of_spCotSendUse hq).1
  · intro q hq
    obtain ⟨i, hi, hq⟩ := of_bind_eq_ok hq
    have hidx : (if cot.delta = 0 then 2 else OtSendStore.otBlkNum cot.type) *
        ((p.batchNum - 1) * p.batchLength) % 2 ^ 64 =
          OtSendStore.otBlkNum cot.type * ((p.batchNum - 1) * p.batchLength) := by
      rcases hcompact with ⟨-, hdelta⟩ | ⟨hnum, -⟩
      · rw [if_neg hdelta]
        exact Nat.mod_eq_of_lt (hoverflow _ (by rw [Nat.mul_comm]; omega))
      · rw [hnum, Nat.zero_mul]
        rfl
    rw [← Except.ok.inj hq, (SliceBase.of_getBufIdx hi).2, hidx]

/-- **Disjoint uses.** In the malicious mode the pieces that the bins and the check read are
pairwise disjoint if and only if the last bin has more than one entry, or the window of the store
begins so late in its buffer that the check, which counts from the beginning of the buffer, ends
before it. A call that returns after some sequence of messages has read its pieces. -/
theorem mpCotRN_disjoint_iff {idxRange idxNum spcotSize : ℕ} (h64 : idxRange < 2 ^ 64) :
    (∀ (cot : OtSendStore) (uses : List Piece),
      mpCotRNSendUses cot idxRange idxNum spcotSize = .ok uses →
        (uses.Pairwise Piece.Disjoint ↔ (idxRange - 1) % spcotSize ≠ 0 ∨
          OtSendStore.otBlkNum cot.type * 128 ≤ cot.useCtr)) ∧
    (∀ (cot : OtRecvStore) (uses : List Piece),
      mpCotRNRecvUses cot idxRange idxNum spcotSize = .ok uses →
        (uses.Pairwise Piece.Disjoint ↔ (idxRange - 1) % spcotSize ≠ 0 ∨ 128 ≤ cot.useCtr)) ∧
    (∀ (T : Tools) (cot : OtSendStore) (seed : ℕ → Uint128) (syncSeed : Uint128)
      (out : List Uint128) (e : Exception),
      mpCotRNSendUses cot idxRange idxNum spcotSize = .error e →
        (mpCotRNSend T seed syncSeed cot idxRange idxNum spcotSize out true).NeverReturns) ∧
    ∀ (T : Tools) (cot : OtRecvStore) (out : List Uint128) (e : Exception),
      mpCotRNRecvUses cot idxRange idxNum spcotSize = .error e →
        (mpCotRNRecv T cot idxRange idxNum spcotSize out true).NeverReturns :=
  ⟨fun _ _ h => mpCotRNSendUses_pairwise_iff h64 h, fun _ _ h => mpCotRNRecvUses_pairwise_iff h64 h,
    fun T _ seed syncSeed out _ h => mpCotRNSend_neverReturns T h seed syncSeed out,
    fun T _ out _ h => mpCotRNRecv_neverReturns T h out⟩

/-- A sender's store with 132 zero blocks. -/
def sendZeros : OtSendStore where
  useCtr := 0
  useSize := 132
  bufCtr := 0
  bufSize := 132
  useSize_pos := by omega
  use_le := by omega
  bufCtr_le := by omega
  type := .compact
  delta := 1
  blkBuf := List.replicate 132 0
  bufSize_le := by simp

/-- The receiver's store that matches it, with all choices set. -/
def recvOnes : OtRecvStore where
  useCtr := 0
  useSize := 132
  bufCtr := 0
  bufSize := 132
  useSize_pos := by omega
  use_le := by omega
  bufCtr_le := by omega
  type := .compact
  bitBuf := .ofSize 0
  blkBuf := List.replicate 132 1
  bufSize_le := by simp
  bitBuf_size := by simp

/-- Six indexes in bins of four, for which all uses are disjoint. -/
theorem mpCotRN_disjoint_six :
    (∃ uses, mpCotRNSendUses sendZeros 6 2 4 = .ok uses ∧ uses.Pairwise Piece.Disjoint) ∧
      ∃ uses, mpCotRNRecvUses recvOnes 6 2 4 = .ok uses ∧ uses.Pairwise Piece.Disjoint := by
  have hsend : mpCotRNSendUses sendZeros 6 2 4 = .ok [⟨0, 2⟩, ⟨2, 1⟩, ⟨3, 128⟩] := by
    decide +kernel
  have hrecv : mpCotRNRecvUses recvOnes 6 2 4 = .ok [⟨0, 2⟩, ⟨2, 1⟩, ⟨3, 128⟩] := by
    decide +kernel
  obtain ⟨hs, hr, -⟩ := @mpCotRN_disjoint_iff 6 2 4 (by decide)
  exact ⟨⟨_, hsend, (hs _ _ hsend).2 (.inl (by decide))⟩,
    ⟨_, hrecv, (hr _ _ hrecv).2 (.inl (by decide))⟩⟩

/-- Five indexes in bins of four: the transfer of the last bin is the first mask of the check. -/
theorem mpCotRN_disjoint_five :
    (∃ uses, mpCotRNSendUses sendZeros 5 2 4 = .ok uses ∧ ¬uses.Pairwise Piece.Disjoint) ∧
      ∃ uses, mpCotRNRecvUses recvOnes 5 2 4 = .ok uses ∧ ¬uses.Pairwise Piece.Disjoint := by
  have hsend : mpCotRNSendUses sendZeros 5 2 4 = .ok [⟨0, 2⟩, ⟨2, 1⟩, ⟨2, 128⟩] := by
    decide +kernel
  have hrecv : mpCotRNRecvUses recvOnes 5 2 4 = .ok [⟨0, 2⟩, ⟨2, 1⟩, ⟨2, 128⟩] := by
    decide +kernel
  refine ⟨⟨_, hsend, fun h => ?_⟩, ⟨_, hrecv, fun h => ?_⟩⟩
  · exact absurd ((mpCotRNSendUses_pairwise_iff (by decide) hsend).1 h) (by decide)
  · exact absurd ((mpCotRNRecvUses_pairwise_iff (by decide) hrecv).1 h) (by decide)

end Yacl.Crypto
